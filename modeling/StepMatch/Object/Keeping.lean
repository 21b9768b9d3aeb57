import StepMatch.Locale.Memo
import StepMatch.Assertion.Phrase

/-!
# What objects keep

A data type or a factory that is in use is an object: what it builds for a locale it keeps, and
what it was asked before decides what it has at hand. Objects are told apart by numbers. What all
of them keep is one state, and asking an object is a computation on that state which may fail.
-/

namespace StepMatch

/-- What a data type builds for one locale. -/
structure LocalForms where
  /-- Recognises a value inside a sentence. -/
  regex : Text
  /-- The formats that are accepted. -/
  hints : List String
  /-- The value that a text writes, or the reason why it writes none. -/
  read : Text → Except String Value

/-- What a data type is in a locale. -/
def DataType.formsIn (d : DataType) (l : Locale) : LocalForms := ⟨d.regex l, d.hints l, d.read l⟩

/-- What all objects keep, each under its number. -/
structure Kept where
  forms : Nat → LocaleMemo LocalForms := fun _ => .empty
  phrases : Nat → LocaleMemo PhraseSet := fun _ => .empty

namespace Kept

/-- What is kept after the memo of forms under a number has changed. -/
def setForms (number : Nat) (memo : LocaleMemo LocalForms) (k : Kept) : Kept :=
  { k with forms := fun n => if n = number then memo else k.forms n }

/-- What is kept after the memo of phrases under a number has changed. -/
def setPhrases (number : Nat) (memo : LocaleMemo PhraseSet) (k : Kept) : Kept :=
  { k with phrases := fun n => if n = number then memo else k.phrases n }

end Kept

/-- A computation that uses what is kept and adds to it. It may fail, but what it has added by
then stays. -/
abbrev Keeping (ε α : Type) := ExceptT ε (StateM Kept) α

namespace Keeping

variable {ε ε' α : Type}

/-- A result that needs nothing that is kept. -/
def ofResult (x : Except ε α) : Keeping ε α := ExceptT.mk (pure x)

/-- The computation with its faults seen another way. -/
def mapFault (f : ε → ε') (x : Keeping ε α) : Keeping ε' α := ExceptT.adapt f x

/-- The computation as one that cannot fail: its result or its fault is the result. -/
def attempt (x : Keeping ε α) : Keeping ε' (Except ε α) := ExceptT.lift x.run

/-- The result from what is kept, and what is kept then. -/
def runFrom (x : Keeping ε α) (k : Kept) : Except ε α × Kept := x.run.run k

/-- What a memo has for a locale. If it has nothing, `build` makes it and the memo gets it; while
that was going on, the memo may have got something else, which then counts. -/
def remember (memo : Kept → LocaleMemo α) (set : LocaleMemo α → Kept → Kept) (l : Locale)
    (build : Keeping ε α) : Keeping ε α := do
  match (memo (← get)).get? l with
  | some a => return a
  | none =>
    let a ← build
    modifyGet fun k =>
      let (a, memo) := (memo k).publish l a
      (a, set memo k)

end Keeping
end StepMatch
