import StepMatch.DataType.Basic

/-!
# Assertions

An assertion is a test of values that can say why a value fails it. Assertions are built from
phrases; the faults on the way from a phrase to a verdict are here, with their wording.
-/

namespace StepMatch

/-- What can go wrong with an assertion. -/
inductive AssertionFault where
  /-- The text is none of the phrases of the factory. -/
  | unresolved (factory : String) (locale : Locale) (text : Text) (expected : List Text)
  /-- The factory builds nothing under this key. -/
  | unknownKey (factory key : String)
  /-- The phrase needs a value, and there is none. -/
  | missingValue (factory key : String)
  /-- The value of the phrase cannot be read. -/
  | unreadable (fault : ReadFault)
  /-- The template makes no regex. -/
  | invalidPhrase (template : Text)
  /-- The assertion does not hold. -/
  | failed (assertion detail : String)
deriving DecidableEq, Repr

/-- The wording of a fault. -/
def AssertionFault.message : AssertionFault → String
  | .unresolved factory locale text expected =>
    "`" ++ text.asString ++ "` is not a " ++ factory ++ " phrase in locale " ++ locale.tag
      ++ "; expected one of: " ++ ", ".intercalate (expected.map Text.asString)
  | .unknownKey factory key => factory ++ " has no phrase key `" ++ key ++ "`"
  | .missingValue factory key => factory ++ " phrase `" ++ key ++ "` requires a value"
  | .unreadable fault => fault.message
  | .invalidPhrase template => "invalid assertion phrase `" ++ template.asString ++ "`"
  | .failed assertion detail => "assertion " ++ assertion ++ " failed: " ++ detail

/-- A test of values. -/
structure Assertion where
  name : String
  test : Value → Bool
  /-- Why a value would fail the test. -/
  describeFailure : Value → String

instance : Named Assertion := ⟨Assertion.name⟩

namespace Assertion

/-- Tests a value; a failure is a fault. -/
def verify (a : Assertion) (v : Value) : Except AssertionFault Unit :=
  if a.test v then .ok () else .error (.failed a.name (a.describeFailure v))

/-- An assertion with a description that completes "expected the value to". -/
def ofTest (name description : String) (test : Value → Bool) : Assertion where
  name := name
  test := test
  describeFailure v := "expected " ++ v.display ++ " to " ++ description

end Assertion

/-- The wording of a look-up of an assertion that is not registered. -/
def UnknownName.assertionMessage (u : UnknownName) : String :=
  "unknown assertion `" ++ u.name ++ "`; known assertions: " ++ ", ".intercalate u.known

end StepMatch
