import StepMatch.Regex.Bracket

/-!
# Reading a regex

A regex is written as text, and that text is read from left to right, one character at a time.
The state of the reading is what is still open: groups, sets in brackets, an escape, a count.
Reading one text after another is therefore reading their concatenation.

There are literal characters, escapes, `.`, `^`, `$`, sets in brackets, the classes `\d \D \s \S`,
groups (plain, named, ignoring case, looking ahead, atomic), alternatives and the quantifiers
`* + ? {m} {m,} {m,n}`, each lazy with a `?` after it. Anything else is refused.

The dialects differ in what a quantifier may follow. In the plain one it may follow any piece. In
the extended one it follows no start or end of the text, no group that looks ahead, no piece that
has a quantifier, and no group that is empty; a plain group counts as what is in it. There a brace
that starts no count stands for itself.
-/

namespace StepMatch.Regex

/-- What a group does with its body. -/
inductive GroupKind where
  /-- Nothing. -/
  | plain
  /-- It keeps its body together, as one piece. -/
  | unnamed
  | named (name : Text)
  | ahead (wanted : Bool)
  | atomic
deriving DecidableEq, Repr

/-- What a complete group stands for. -/
def GroupKind.close : GroupKind → Regex → Regex
  | .plain, r | .unnamed, r => r
  | .named name, r => .capture name r
  | .ahead wanted, r => .ahead wanted r
  | .atomic, r => .atomic r

/-- A piece of a sequence, and whether a quantifier may follow it. -/
structure Item where
  regex : Regex
  repeatable : Bool := true
deriving DecidableEq, Repr

/-- What a quantifier would apply to. -/
inductive Target where
  /-- There is no piece, or the piece is complete. -/
  | nothing
  /-- There is a piece that no quantifier may follow. -/
  | fixed
  /-- The last piece. -/
  | piece
deriving DecidableEq, Repr

/-- A group that is open. The whole regex counts as one. -/
structure Scope where
  kind : GroupKind
  /-- Whether the case of letters does not count here. -/
  fold : Bool
  /-- Alternatives that are complete, last one first. -/
  alternatives : List Regex := []
  /-- The pieces of the last alternative, last one first. -/
  items : List Item := []
  target : Target := .nothing
deriving DecidableEq, Repr

namespace Scope

/-- Adds a piece that a quantifier may follow if it is repeatable. -/
def push (s : Scope) (i : Item) : Scope :=
  { s with items := i :: s.items, target := if i.repeatable then .piece else .fixed }

/-- Adds a piece with a quantifier. Only in the plain dialect another one may follow. -/
def pushRepeated (s : Scope) (d : Dialect) (r : Regex) : Scope :=
  { s with items := ⟨r, true⟩ :: s.items, target := if d == .plain then .piece else .nothing }

/-- The pieces of the last alternative as one regex. -/
def lastAlternative (s : Scope) : Regex := .concat (s.items.reverse.map Item.regex)

/-- Completes an alternative. -/
def nextAlternative (s : Scope) : Scope :=
  { s with alternatives := s.lastAlternative :: s.alternatives, items := [], target := .nothing }

/-- The regex between the brackets. -/
def body (s : Scope) : Regex := .anyOf (s.lastAlternative :: s.alternatives).reverse

/-- Adds a group inside this one that is complete. In the extended dialect a plain group is no
piece of its own. -/
def pushGroup (s : Scope) (d : Dialect) (group : Scope) : Scope :=
  match d, group.kind, group.alternatives, group.items with
  | .extended, .plain, [], [] => { s with target := .fixed }
  | .extended, .plain, [], [i] => s.push i
  | _, .ahead wanted, _, _ => s.push ⟨.ahead wanted group.body, false⟩
  | _, kind, _, _ => s.push ⟨kind.close group.body, true⟩

end Scope

/-- What the next character belongs to. -/
inductive Mode where
  /-- A new piece, or a quantifier of the last one. -/
  | plain
  /-- The end of a quantifier, which a question mark makes lazy. -/
  | quantified (greedy : Bool) (low : Nat) (high : Option Nat) (r : Regex)
  /-- An escape. -/
  | escape
  /-- The start of a group. -/
  | opened
  /-- The kind of a group, after a question mark. -/
  | groupKind
  /-- The angle bracket in front of a name. -/
  | nameBracket
  /-- The name of a group, read so far. -/
  | name (read : Text)
  /-- The colon after the flag that ignores case. -/
  | foldColon
  /-- A count in braces, read so far. -/
  | count (read : Text)
  /-- A set in brackets. -/
  | set (bs : Brackets)
deriving DecidableEq, Repr

/-- How far the reading of a regex has come. -/
structure State where
  mode : Mode
  /-- The innermost group that is open. -/
  inner : Scope
  /-- The groups around it. -/
  outer : List Scope
  /-- The names in use. -/
  names : List Text
deriving DecidableEq, Repr

namespace State

/-- Before the first character. -/
def start : State := ⟨.plain, { kind := .plain, fold := false }, [], []⟩

/-- Goes on after a piece. -/
def continueWith (s : State) (inner : Scope) : State := { s with mode := .plain, inner := inner }

/-- Adds one character of a set. -/
def pushSet (s : State) (m : CharSet) : State :=
  s.continueWith (s.inner.push ⟨.chars s.inner.fold m, true⟩)

/-- Adds a character that stands for itself. -/
def literal (s : State) (c : Char) : State := s.pushSet (.single c)

/-- Adds the start or the end of the text. -/
def pushEdge (s : State) (d : Dialect) (r : Regex) : State :=
  s.continueWith (s.inner.push ⟨r, d == .plain⟩)

/-- Takes the last piece away for a quantifier. -/
def quantify (s : State) (low : Nat) (high : Option Nat) : Option State :=
  match s.inner.target, s.inner.items with
  | .piece, i :: items =>
    some { s with
      mode := .quantified true low high i.regex
      inner := { s.inner with items := items, target := .nothing } }
  | _, _ => none

/-- Opens a group. -/
def openGroup (s : State) (kind : GroupKind) (fold : Bool) : State :=
  { s with mode := .plain, inner := { kind := kind, fold := fold }, outer := s.inner :: s.outer }

/-- Closes the innermost group. -/
def closeGroup (s : State) (d : Dialect) : Option State :=
  match s.outer with
  | [] => none
  | around :: outer => some { s.continueWith (around.pushGroup d s.inner) with outer := outer }

/-- Reads an opening brace. -/
def openBrace (s : State) (d : Dialect) : Option State :=
  match s.inner.target, d with
  | .nothing, .plain => none
  | .nothing, .extended => some (s.literal '{')
  | _, _ => some { s with mode := .count [] }

/-- Reads a character outside everything but groups. -/
def readPlain (d : Dialect) (s : State) (c : Char) : Option State :=
  match c with
  | '\\' => some { s with mode := .escape }
  | '(' => some { s with mode := .opened }
  | ')' => s.closeGroup d
  | '|' => some (s.continueWith s.inner.nextAlternative)
  | '[' => some { s with mode := .set {} }
  | '.' => some (s.pushSet .inLine)
  | '^' => some (s.pushEdge d .atStart)
  | '$' => some (s.pushEdge d .atEnd)
  | '*' => s.quantify 0 none
  | '+' => s.quantify 1 none
  | '?' => s.quantify 0 (some 1)
  | '{' => s.openBrace d
  | c => some (s.literal c)

/-- Completes a piece with its quantifier. -/
def pushRepeated (s : State) (d : Dialect) (r : Regex) : State :=
  s.continueWith (s.inner.pushRepeated d r)

/-- Reads a character after a quantifier. -/
def readQuantified (d : Dialect) (s : State) (greedy : Bool) (low : Nat) (high : Option Nat)
    (r : Regex) (c : Char) : Option State :=
  if c == '?' && greedy then some { s with mode := .quantified false low high r }
  else if c == '+' && d == .extended then
    some (s.pushRepeated d (.atomic (.repeated greedy low high r)))
  else (s.pushRepeated d (.repeated greedy low high r)).readPlain d c

/-- Gives up a count: the brace and what has been read after it stand for themselves. Only the
extended dialect allows that. -/
def abandonCount (d : Dialect) (s : State) (read : Text) : Option State :=
  match d with
  | .plain => none
  | .extended => some (('{' :: read).foldl literal s)

/-- Reads a character of a count. -/
def readCount (d : Dialect) (s : State) (read : Text) (c : Char) : Option State :=
  match if c == '}' then d.limits? read else none with
  | some (low, high) => if high.all (low ≤ ·) then s.quantify low high else none
  | none =>
    if isStartOfCount (read ++ [c]) then some { s with mode := .count (read ++ [c]) }
    else (s.abandonCount d read).bind fun s => s.readPlain d c

/-- Reads the kind of a group. -/
def readGroupKind (d : Dialect) (s : State) (c : Char) : Option State :=
  match c, d with
  | ':', _ => some (s.openGroup .plain s.inner.fold)
  | '!', .extended => some (s.openGroup (.ahead false) s.inner.fold)
  | '=', .extended => some (s.openGroup (.ahead true) s.inner.fold)
  | '>', .extended => some (s.openGroup .atomic s.inner.fold)
  | 'i', _ => some { s with mode := .foldColon }
  | 'P', _ => some { s with mode := .nameBracket }
  | '<', _ => some { s with mode := .name [] }
  | _, _ => none

/-- Reads a character of a name. In the plain dialect each name belongs to one group. -/
def readName (d : Dialect) (s : State) (read : Text) (c : Char) : Option State :=
  if c == '>' then
    if read.isEmpty || d == .plain && s.names.contains read then none
    else some { s.openGroup (.named read) s.inner.fold with names := read :: s.names }
  else if d.allowsInName read.isEmpty c then some { s with mode := .name (read ++ [c]) }
  else none

/-- Reads one character. -/
def step (d : Dialect) (s : State) (c : Char) : Option State :=
  match s.mode with
  | .plain => s.readPlain d c
  | .quantified greedy low high r => s.readQuantified d greedy low high r c
  | .escape =>
    match Escape.of? d c with
    | some (.literal c) => some (s.literal c)
    | some (.members m) => some (s.pushSet m)
    | none => none
  | .opened =>
    if c == '?' then some { s with mode := .groupKind }
    else (s.openGroup .unnamed s.inner.fold).readPlain d c
  | .groupKind => s.readGroupKind d c
  | .nameBracket => if c == '<' then some { s with mode := .name [] } else none
  | .name read => s.readName d read c
  | .foldColon => if c == ':' then some (s.openGroup .plain true) else none
  | .count read => s.readCount d read c
  | .set bs =>
    match bs.step d c with
    | some (.reading bs) => some { s with mode := .set bs }
    | some (.complete m) => some (s.pushSet m)
    | none => none

/-- The regex, once the text is at its end and nothing is open. Of several groups with one name the
one that opens last counts. -/
def finish (d : Dialect) (s : State) : Option Regex :=
  let s' := match s.mode with
    | .plain => some s
    | .quantified greedy low high r => some (s.pushRepeated d (.repeated greedy low high r))
    | .count read => s.abandonCount d read
    | _ => none
  s'.bind fun s => if s.outer.isEmpty then some (s.inner.body.lastOfEachName []).1 else none

end State

/-- The regex that a text writes in a dialect, if it writes one. -/
def read? (d : Dialect) (t : Text) : Option Regex :=
  (t.foldlM (State.step d) State.start).bind (State.finish d)

end StepMatch.Regex
