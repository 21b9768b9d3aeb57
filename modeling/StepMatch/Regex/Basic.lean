import StepMatch.Text.Digit
import StepMatch.Text.Case

/-!
# Regular expressions

The regexes that patterns, data types and phrases are written in, as trees. Alternatives are
tried in order, the first that leads to a match wins. A group without a name leaves no trace.
-/

namespace StepMatch

/-- A set of characters. -/
inductive CharSet where
  | none
  | single (c : Char)
  | range (low high : Char)
  /-- The decimal digits of Unicode. -/
  | digit
  /-- White space. -/
  | blank
  | union (a b : CharSet)
  | inter (a b : CharSet)
  | complement (s : CharSet)
deriving DecidableEq, Repr

namespace CharSet

/-- Every character but the end of a line. -/
def inLine : CharSet := .complement (.single '\n')

/-- What is in the first set and not in the second. -/
def difference (a b : CharSet) : CharSet := .inter a (.complement b)

/-- What is in one of the sets and not in the other. -/
def symmetricDifference (a b : CharSet) : CharSet := .union (a.difference b) (b.difference a)

/-- What is in one of the ranges. -/
def ofRanges (ranges : List (Char × Char)) : CharSet :=
  ranges.foldl (fun s range => .union s (.range range.1 range.2)) .none

/-- Whether `c` is in the set; `fold` says that the case of letters does not count. -/
def contains (fold : Bool) (s : CharSet) (c : Char) : Bool :=
  match s with
  | .none => false
  | .single d => if fold then (caseVariants c).contains d else c == d
  | .range low high =>
    if fold then (caseVariants c).any fun d => low ≤ d && d ≤ high else low ≤ c && c ≤ high
  | .digit => isDigit c
  | .blank => isBlank c
  | .union a b => a.contains fold c || b.contains fold c
  | .inter a b => a.contains fold c && b.contains fold c
  | .complement s => !s.contains fold c

end CharSet

/-- A regular expression. -/
inductive Regex where
  /-- Nothing at all. -/
  | empty
  /-- One character of a set. -/
  | chars (fold : Bool) (s : CharSet)
  /-- The start of the text. -/
  | atStart
  /-- The end of the text. -/
  | atEnd
  /-- One after the other. -/
  | seq (r s : Regex)
  /-- One or the other, the first by preference. -/
  | alt (r s : Regex)
  /-- At least `low` times, and at most `high` times if there is such a limit; as many times as
  possible or as few. -/
  | repeated (greedy : Bool) (low : Nat) (high : Option Nat) (r : Regex)
  /-- Remembers what it matches under a name. -/
  | capture (name : Text) (r : Regex)
  /-- Matches nothing, where `r` could match or where it could not. -/
  | ahead (wanted : Bool) (r : Regex)
  /-- The match of `r` that is preferred, and no other. -/
  | atomic (r : Regex)
deriving DecidableEq, Repr

namespace Regex

/-- All of them in order. -/
def concat : List Regex → Regex
  | [] => .empty
  | r :: rs => rs.foldl .seq r

/-- Any of them, earlier ones by preference. -/
def anyOf : List Regex → Regex
  | [] => .empty
  | [r] => r
  | r :: rs => .alt r (anyOf rs)

/-- Whether the regex may match without taking a character. -/
def nullable : Regex → Bool
  | .empty | .atStart | .atEnd | .ahead .. => true
  | .chars .. => false
  | .seq r s => r.nullable && s.nullable
  | .alt r s => r.nullable || s.nullable
  | .repeated _ low _ r => low == 0 || r.nullable
  | .capture _ r | .atomic r => r.nullable

/-- Whether the regex neither looks ahead nor fixes a choice. -/
def isRegular : Regex → Bool
  | .empty | .chars .. | .atStart | .atEnd => true
  | .seq r s | .alt r s => r.isRegular && s.isRegular
  | .repeated _ _ _ r | .capture _ r => r.isRegular
  | .ahead .. | .atomic _ => false

/-- Forgets the groups whose name is among the given ones or belongs to a group that opens later
too. The names of all groups come with the result. -/
def lastOfEachName (later : List Text) : Regex → Regex × List Text
  | .seq r s =>
    let (s', later) := s.lastOfEachName later
    let (r', later) := r.lastOfEachName later
    (.seq r' s', later)
  | .alt r s =>
    let (s', later) := s.lastOfEachName later
    let (r', later) := r.lastOfEachName later
    (.alt r' s', later)
  | .repeated greedy low high r =>
    let (r', later) := r.lastOfEachName later
    (.repeated greedy low high r', later)
  | .capture name r =>
    let (r', later) := r.lastOfEachName later
    if later.contains name then (r', later) else (.capture name r', name :: later)
  | .ahead wanted r =>
    let (r', later) := r.lastOfEachName later
    (.ahead wanted r', later)
  | .atomic r =>
    let (r', later) := r.lastOfEachName later
    (.atomic r', later)
  | r => (r, later)

end Regex
end StepMatch
