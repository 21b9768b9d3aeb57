import StepMatch.Regex.Basic
import StepMatch.Numeral.Integer

/-!
# Dialects

There are two ways to write a regex. The plain dialect is the one of phrases and of single values:
it has no look ahead, and a quantifier may follow another one. The extended dialect is the one of
whole sentences: a group may look ahead or be atomic, and a `+` after a quantifier makes it
possessive. The rules here are those for single characters: escapes, names of groups and counts.
-/

namespace StepMatch.Regex

/-- A way to write regexes. -/
inductive Dialect where
  | plain
  | extended
deriving DecidableEq, Repr

/-- What an escape stands for. -/
inductive Escape where
  | literal (c : Char)
  | members (s : CharSet)

/-- The meaning of the character after a backslash. -/
def Escape.of? (d : Dialect) (c : Char) : Option Escape :=
  match c with
  | 'd' => some (.members .digit)
  | 'D' => some (.members (.complement .digit))
  | 's' => some (.members .blank)
  | 'S' => some (.members (.complement .blank))
  | 'a' => some (.literal '\x07')
  | 'f' => some (.literal '\x0c')
  | 'n' => some (.literal '\n')
  | 'r' => some (.literal '\r')
  | 't' => some (.literal '\t')
  | 'v' => some (.literal '\x0b')
  | c =>
    if c.isAlphanum || c == '<' || c == '>' then none
    else if c.toNat < 0x80 || d == .extended then some (.literal c)
    else none

/-- Whether a character may stand in the name of a group; in the plain dialect a name starts with
no digit. -/
def Dialect.allowsInName (d : Dialect) (first : Bool) (c : Char) : Bool :=
  match d with
  | .plain =>
    c == '_' || c.isAlpha || c.toNat ≥ 0x80
      || !first && (c.isDigit || c == '.' || c == '[' || c == ']')
  | .extended => c == '_' || c.isAlphanum || c.toNat ≥ 0x80

/-- Whether a text is the start of a count in braces, without the braces. -/
def isStartOfCount (t : Text) : Bool :=
  match t.splitAtFirst (· == ',') with
  | none => t.all isAsciiDigit
  | some (low, high) => low.all isAsciiDigit && high.all isAsciiDigit

/-- The limits that a count in braces sets. In the extended dialect a limit may be left out in
front of the comma too. -/
def Dialect.limits? (d : Dialect) (t : Text) : Option (Nat × Option Nat) :=
  match t.splitAtFirst (· == ',') with
  | none => (readNatural? t).map fun n => (n, some n)
  | some (low, high) => do
    let low ← if low.isEmpty && d == .extended then some 0 else readNatural? low
    if high.isEmpty then return (low, none)
    return (low, some (← readNatural? high))

end StepMatch.Regex
