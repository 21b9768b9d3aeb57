import StepMatch.Matcher.Basic

/-!
# Matching

A sentence that fits a matcher gives an argument for each argument slot, in order, and the
assertion of the assertion slot. It is all or nothing: the first slot whose text cannot be read
decides.
-/

namespace StepMatch

/-- What stands in an argument slot. -/
inductive Argument where
  /-- A value that the data type of the slot read. -/
  | literal (v : Value)
  /-- A reference to a variable, left to the caller. -/
  | variable (name : Text)

namespace Argument

/-- The name in a reference to a variable: what stands between a dollar sign with a brace and a
closing brace. -/
def variableName? : Text → Option Text
  | '$' :: '{' :: t => Text.withoutEnding? t ['}']
  | _ => none

/-- The value of an argument that is one. -/
def literal? : Argument → Option Value
  | .literal v => some v
  | .variable _ => none

/-- The argument that a text writes. -/
def read (binding : String) (type : DataType) (l : Locale) (t : Text) :
    Except MatchFault Argument :=
  match variableName? t with
  | some name => .ok (.variable name)
  | none =>
    match type.parse l t with
    | .ok v => .ok (.literal v)
    | .error fault => .error (.argument binding fault)

end Argument

/-- What a matcher takes from a sentence that fits. -/
structure Match where
  arguments : List (String × Argument) := []
  assertion : Option Assertion := none

namespace Match

/-- The first argument under a name. -/
def argument? (m : Match) (name : String) : Option Argument := m.arguments.lookup name

/-- The values among the arguments, in order. -/
def literals (m : Match) : List Value := m.arguments.filterMap fun a => a.2.literal?

/-- Reads what stands in the next slot. -/
def readSlot (l : Locale) (m : Match) : Piece × Text → Except MatchFault Match
  | (.pattern _, _) => .ok m
  | (.argument binding type, t) =>
    (Argument.read binding type l t).map fun a =>
      { m with arguments := m.arguments ++ [(binding, a)] }
  | (.assertion factory, t) =>
    match factory.resolve l t with
    | .ok a => .ok { m with assertion := some a }
    | .error fault => .error (.assertion fault)

end Match

namespace Matcher

/-- The texts of the slots in an outcome; one that took no part is empty. -/
def capturedTexts (o : Regex.Outcome) (slots : Nat) : List Text :=
  (List.range slots).map fun index => (o.group? (Piece.slotGroup index)).getD []

/-- Matches a sentence with the regex of the matcher in a locale. -/
def matchWith (m : Matcher) (p : Program) (l : Locale) (sentence : Text) :
    Except MatchFault (Option Match) :=
  match p.regex.search sentence with
  | none => .ok none
  | some o =>
    ((m.slots.zip (capturedTexts o m.slots.length)).foldlM (Match.readSlot l) {}).map some

/-- Matches a sentence as it is written in a locale. There is no match when the sentence does not
fit. -/
def matchIn (m : Matcher) (l : Locale) (sentence : Text) : Except MatchFault (Option Match) :=
  (m.program l).bind fun p => m.matchWith p l sentence

end Matcher
end StepMatch
