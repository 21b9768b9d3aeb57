import StepMatch.Assertion.Phrase
import StepMatch.Locale.Conventions

/-!
# Checks of texts

Assertions about texts: what they are, how they start and end, what they hold. Values that are no
texts fulfil none of them.
-/

namespace StepMatch

/-- Whether a text stands somewhere in another one. -/
def Text.isWithin (part : Text) : Text → Bool
  | [] => part.isEmpty
  | c :: t => part.isPrefixOf (c :: t) || part.isWithin t

/-- What a text is asked for. -/
inductive TextCheck where
  | equal (reference : Text)
  | notEqual (reference : Text)
  | startsWith (reference : Text)
  | endsWith (reference : Text)
  | contains (reference : Text)
  | notContains (reference : Text)
  | empty
  | notEmpty
deriving DecidableEq, Repr

namespace TextCheck

/-- The check with a given key, if it needs no reference. -/
def bare? : String → Option TextCheck
  | "empty" => some .empty
  | "not-empty" => some .notEmpty
  | _ => none

/-- The check with a given key, if it needs a reference. -/
def withReference? : String → Option (Text → TextCheck)
  | "equal" => some .equal
  | "not-equal" => some .notEqual
  | "starts-with" => some .startsWith
  | "ends-with" => some .endsWith
  | "contains" => some .contains
  | "not-contains" => some .notContains
  | _ => none

/-- Whether a text passes. -/
def holds : TextCheck → Text → Bool
  | .equal r, t => t == r
  | .notEqual r, t => t != r
  | .startsWith r, t => r.isPrefixOf t
  | .endsWith r, t => r.isSuffixOf t
  | .contains r, t => r.isWithin t
  | .notContains r, t => !r.isWithin t
  | .empty, t => t.isEmpty
  | .notEmpty, t => !t.isEmpty

/-- What a text is expected to do. -/
def describe : TextCheck → String
  | .equal r => "be " ++ r.quoted
  | .notEqual r => "not be " ++ r.quoted
  | .startsWith r => "start with " ++ r.quoted
  | .endsWith r => "end with " ++ r.quoted
  | .contains r => "contain " ++ r.quoted
  | .notContains r => "not contain " ++ r.quoted
  | .empty => "be empty"
  | .notEmpty => "not be empty"

/-- Whether a value is a text that passes. -/
def test (c : TextCheck) (v : Value) : Bool := v.text?.any c.holds

/-- The assertion that values pass the check. -/
def assertion (c : TextCheck) (name : String) : Assertion := .ofTest name c.describe c.test

/-- The phrases for checks of texts. -/
def phrases : PhraseLanguage → List PhraseEntry
  | .english =>
    [.plain "not-empty" "is not empty",
     .plain "empty" "is empty",
     .taking "not-equal" "is not equal to",
     .taking "equal" "is equal to",
     .taking "not-equal" "is not",
     .taking "equal" "is",
     .taking "starts-with" "starts with",
     .taking "ends-with" "ends with",
     .taking "not-contains" "does not contain",
     .taking "contains" "contains"]
  | .spanish =>
    [.plain "not-empty" "no está vacío",
     .plain "empty" "está vacío",
     .taking "not-equal" "no es igual a",
     .taking "equal" "es igual a",
     .taking "not-equal" "no es",
     .taking "equal" "es",
     .taking "starts-with" "empieza por",
     .taking "ends-with" "termina en",
     .taking "not-contains" "no contiene",
     .taking "contains" "contiene"]

end TextCheck

namespace AssertionFactory

/-- The text that a value is a reference for: its own, or the one it is shown as. -/
def referenceOf (v : Value) : Text := v.text?.getD v.display.toList

/-- The check of a key, with its reference if it needs one. -/
def textCheck (name key : String) (reference : Option Text) : Except AssertionFault TextCheck :=
  match TextCheck.bare? key, TextCheck.withReference? key, reference with
  | some c, _, _ => .ok c
  | none, some check, some r => .ok (check r)
  | none, some _, none => .error (.missingValue name key)
  | none, none, _ => .error (.unknownKey name key)

/-- Builds a check with a reference that the data type reads. A value that cannot be read is a
fault whatever the key. -/
def buildTextCheck (name : String) (type : DataType) (key : String) (value : Option Text)
    (l : Locale) : Except AssertionFault Assertion :=
  let check (reference : Option Text) : Except AssertionFault Assertion :=
    (textCheck name key reference).map fun c => c.assertion name
  match value.map (type.parse l) with
  | none => check none
  | some (.ok v) => check (some (referenceOf v))
  | some (.error fault) => .error (.unreadable fault)

/-- Checks of texts with references of a data type. -/
def checkingTexts (name : String) (type : DataType) : AssertionFactory where
  name := name
  phrases l := PhraseSet.ofEntries (TextCheck.phrases l.phraseLanguage) (type.regex l)
  build := buildTextCheck name type

end AssertionFactory
end StepMatch
