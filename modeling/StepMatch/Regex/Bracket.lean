import StepMatch.Regex.Dialect

/-!
# Sets in brackets

A set between brackets has members: characters, ranges, escapes and further sets in brackets. The
operators `&&`, `--` and `~~` combine what stands before them with what stands up to the next
operator. A sign counts as an operator only when it is doubled, and a dash only makes a range when
it stands between two characters.
-/

namespace StepMatch.Regex

/-- A way to combine two sets. -/
inductive SetOperator where
  | inter
  | difference
  | symmetricDifference
deriving DecidableEq, Repr

namespace SetOperator

/-- The operator that a doubled sign writes. -/
def of? (c : Char) : Option SetOperator :=
  match c with
  | '&' => some .inter
  | '-' => some .difference
  | '~' => some .symmetricDifference
  | _ => none

/-- The combination of two sets. -/
def apply : SetOperator → CharSet → CharSet → CharSet
  | .inter, a, b => .inter a b
  | .difference, a, b => a.difference b
  | .symmetricDifference, a, b => a.symmetricDifference b

end SetOperator

/-- The sets of ASCII characters that have a name. -/
def namedSet? (name : String) : Option CharSet :=
  let ranges : Option (List (Char × Char)) := match name with
    | "alnum" => some [('0', '9'), ('A', 'Z'), ('a', 'z')]
    | "alpha" => some [('A', 'Z'), ('a', 'z')]
    | "ascii" => some [('\x00', '\x7f')]
    | "blank" => some [('\t', '\t'), (' ', ' ')]
    | "cntrl" => some [('\x00', '\x1f'), ('\x7f', '\x7f')]
    | "digit" => some [('0', '9')]
    | "graph" => some [('!', '~')]
    | "lower" => some [('a', 'z')]
    | "print" => some [(' ', '~')]
    | "punct" => some [('!', '/'), (':', '@'), ('[', '\x60'), ('\x7b', '~')]
    | "space" => some [('\t', '\r'), (' ', ' ')]
    | "upper" => some [('A', 'Z')]
    | "word" => some [('0', '9'), ('A', 'Z'), ('_', '_'), ('a', 'z')]
    | "xdigit" => some [('0', '9'), ('A', 'F'), ('a', 'f')]
    | _ => none
  ranges.map CharSet.ofRanges

/-- The set that a text up to a closing bracket names: a name between colons, a caret in front of
it for the characters outside the set. -/
def namedSetOf? (t : Text) : Option CharSet :=
  let named (t : Text) : Option CharSet :=
    (Text.withoutEnding? t [':', ']']).bind fun name => namedSet? (String.ofList name)
  match t with
  | ':' :: '^' :: t => (named t).map CharSet.complement
  | ':' :: t => named t
  | _ => none

/-- A member of a set in brackets. -/
inductive Member where
  | char (c : Char)
  | set (s : CharSet)
deriving DecidableEq, Repr

/-- The characters of a member. -/
def Member.chars : Member → CharSet
  | .char c => .single c
  | .set s => s

/-- What has been read last in a set in brackets. -/
inductive BracketMode where
  /-- The bracket, so that a caret takes the complement. -/
  | opened
  /-- The bracket and perhaps a caret, so that a closing bracket is a member. -/
  | first
  /-- Dashes right after that, which are members. -/
  | dashes
  /-- Something complete. -/
  | between
  /-- A sign that is an operator if it is doubled and a member otherwise. -/
  | sign (c : Char)
  /-- A member that a range may start from. -/
  | member (m : Member)
  /-- Such a member and a dash. -/
  | range (m : Member)
deriving DecidableEq, Repr

/-- A set in brackets that is open. -/
structure Bracket where
  mode : BracketMode := .opened
  /-- Whether a caret stands at the start. -/
  negated : Bool := false
  /-- What stands before the last operator, and that operator. -/
  left : Option (CharSet × SetOperator) := none
  /-- The complete members after it. -/
  members : CharSet := .none
  /-- What has been read since the bracket. -/
  text : Text := []
deriving DecidableEq, Repr

namespace Bracket

/-- Adds a complete member. -/
def add (b : Bracket) (s : CharSet) : Bracket :=
  { b with
    mode := .between
    members := match b.members with | .none => s | members => .union members s }

/-- Completes what has been read last. -/
def complete (b : Bracket) : Bracket :=
  match b.mode with
  | .sign c => b.add (.single c)
  | .member m => b.add m.chars
  | .range m => (b.add m.chars).add (.single '-')
  | _ => { b with mode := .between }

/-- Everything before the next operator. -/
def operand (b : Bracket) : CharSet :=
  match b.left with
  | some (s, operator) => operator.apply s b.members
  | none => b.members

/-- Reads an operator after complete members. -/
def operate (b : Bracket) (operator : SetOperator) : Bracket :=
  { b with mode := .between, left := some (b.operand, operator), members := .none }

/-- The set, once its closing bracket is read. -/
def close (b : Bracket) : CharSet :=
  if b.negated then .complement b.complete.operand else b.complete.operand

/-- Reads a member. It completes a range, or it may start one. A range is between two characters,
the smaller one first. -/
def readMember (b : Bracket) (m : Member) : Option Bracket :=
  match b.mode, m with
  | .range (.char low), .char high => if low ≤ high then some (b.add (.range low high)) else none
  | .range _, _ => none
  | _, m => some { b.complete with mode := .member m }

end Bracket

/-- The sets in brackets that are open, the innermost one and those around it. -/
structure Brackets where
  inner : Bracket := {}
  outer : List Bracket := []
  /-- Whether a backslash has been read. -/
  escaped : Bool := false
deriving DecidableEq, Repr

/-- What a character leads to: sets that are still open, or the outermost one complete. -/
inductive BracketsProgress where
  | reading (bs : Brackets)
  | complete (s : CharSet)

namespace Brackets

/-- Goes on with the innermost set. -/
def continueWith (bs : Brackets) (b : Bracket) : BracketsProgress := .reading { bs with inner := b }

/-- Keeps a character in the text of the innermost set. -/
def record (bs : Brackets) (c : Char) : Brackets :=
  { bs with inner := { bs.inner with text := bs.inner.text ++ [c] } }

/-- Closes the innermost set. A set inside another may be written by its name. -/
def close (bs : Brackets) : BracketsProgress :=
  match bs.outer with
  | [] => .complete bs.inner.close
  | around :: outer =>
    let s := (namedSetOf? bs.inner.text).getD bs.inner.close
    .reading { bs with inner := around.add s, outer := outer }

/-- Reads a character after complete members. -/
def readBetween (bs : Brackets) (c : Char) : Option BracketsProgress :=
  match c with
  | '[' => some (.reading { bs with inner := {}, outer := bs.inner :: bs.outer })
  | ']' => some bs.close
  | '&' | '-' | '~' => some (bs.continueWith { bs.inner with mode := .sign c })
  | c => (bs.inner.readMember (.char c)).map bs.continueWith

/-- Completes what has been read last, and reads the next character. -/
def readNext (bs : Brackets) (c : Char) : Option BracketsProgress :=
  { bs with inner := bs.inner.complete }.readBetween c

/-- Reads a dash at the start of the innermost set. -/
def readFirstDash (bs : Brackets) : BracketsProgress :=
  bs.continueWith { bs.inner.add (.single '-') with mode := .dashes }

/-- Reads a closing bracket that is a member as it stands first. In the extended dialect it may
start a range, and a set inside another cannot start with it. -/
def readFirstBracket (d : Dialect) (bs : Brackets) : Option BracketsProgress :=
  match d, bs.outer with
  | .plain, _ => some (bs.continueWith (bs.inner.add (.single ']')))
  | .extended, [] => (bs.inner.readMember (.char ']')).map bs.continueWith
  | .extended, _ => none

/-- Reads a character at the start of the innermost set. -/
def readFirst (d : Dialect) (bs : Brackets) (c : Char) : Option BracketsProgress :=
  match c with
  | '-' => some bs.readFirstDash
  | ']' => bs.readFirstBracket d
  | c => bs.readNext c

/-- Reads a character after a member and a dash. In the extended dialect no range ends with an
opening bracket. -/
def readAfterDash (d : Dialect) (bs : Brackets) (m : Member) (c : Char) :
    Option BracketsProgress :=
  match c with
  | ']' => bs.readNext ']'
  | '-' => some (bs.continueWith ((bs.inner.add m.chars).operate .difference))
  | c =>
    if c == '[' && d == .extended then none
    else (bs.inner.readMember (.char c)).map bs.continueWith

/-- Reads a character that has no backslash in front. -/
def readUnescaped (d : Dialect) (bs : Brackets) (c : Char) : Option BracketsProgress :=
  let startRange (m : Member) : Option BracketsProgress :=
    some (bs.continueWith { bs.inner with mode := .range m })
  match bs.inner.mode, c with
  | .opened, '^' => some (bs.continueWith { bs.inner with mode := .first, negated := true })
  | .opened, c | .first, c => bs.readFirst d c
  | .dashes, '-' => some bs.readFirstDash
  | .sign s, c =>
    match if c == s then SetOperator.of? s else none with
    | some operator => some (bs.continueWith (bs.inner.operate operator))
    | none => if c == '-' then startRange (.char s) else bs.readNext c
  | .member m, '-' => startRange m
  | .range m, c => bs.readAfterDash d m c
  | _, c => bs.readNext c

/-- Reads a character after a backslash: it stands for itself or for a class. -/
def readEscaped (d : Dialect) (bs : Brackets) (c : Char) : Option BracketsProgress :=
  let bs := (bs.record '\\').record c
  match Escape.of? d c with
  | some (.literal c) => (bs.inner.readMember (.char c)).map bs.continueWith
  | some (.members s) => (bs.inner.readMember (.set s)).map bs.continueWith
  | none => none

/-- Reads one character. -/
def step (d : Dialect) (bs : Brackets) (c : Char) : Option BracketsProgress :=
  if bs.escaped then { bs with escaped := false }.readEscaped d c
  else if c == '\\' then some (.reading { bs with escaped := true })
  else (bs.record c).readUnescaped d c

end Brackets
end StepMatch.Regex
