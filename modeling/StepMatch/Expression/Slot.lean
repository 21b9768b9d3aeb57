import StepMatch.Expression.Node

/-!
# Slots

The places of an expression that take a value or an assertion from the sentence.
-/

namespace StepMatch

/-- An argument slot: the value read there is reported under `name`, and the data type called
`typeName` reads it. -/
structure ArgumentSlot where
  name : String
  typeName : String
  /-- Byte offset of the opening brace. -/
  position : Nat
deriving DecidableEq, Repr

/-- An assertion slot: the assertion factory called `name` reads the phrase there. -/
structure AssertionSlot where
  name : String
  /-- Byte offset of the opening braces. -/
  position : Nat
deriving DecidableEq, Repr

/-- Reads the text of an argument slot: a name and a type around the first colon, or one word for
both. -/
def ArgumentSlot.ofText (t : Text) (position : Nat) : ArgumentSlot :=
  let (name, typeName) := (t.splitAtFirst (· == ':')).getD (t, t)
  ⟨name.trim.asString, typeName.trim.asString, position⟩

end StepMatch
