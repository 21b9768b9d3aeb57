import StepMatch.Expression.Grammar

/-!
# Well-spaced expressions

An optional part takes white space with it when it is left out, and how much depends on what stands
next to it. An expression is well spaced when the white space around its parts is written where it
can be told from what stands in front whether it is called for: once between two parts, outside the
brackets of the second one, and never where everything in front may be left out, unless that is
optional parts with blanks between them and literal text after them.

The expression is read from left to right, and all that is kept is what kind of thing stands in
front.
-/

namespace StepMatch

/-- What stands in front of a part. -/
inductive Edge where
  /-- Nothing, or a blank that is written outside the brackets around the part. -/
  | start
  /-- Nothing inside the brackets around the part; outside them there is something. -/
  | bracket
  /-- A slot. -/
  | slot
  /-- An optional part and nothing else. -/
  | leading
  /-- Optional parts with blanks between them and nothing else. -/
  | chain
  /-- Such optional parts, or a single one, and blanks after them. -/
  | gap
  /-- An optional part right after a slot. -/
  | attached
  /-- An optional part right after a slot, and blanks after it. -/
  | attachedGap
  /-- Parts that may all be left out or read as nothing. -/
  | loose
  /-- Something that is always there and does not close with blanks. -/
  | firm
  /-- Blanks, after something that is always there. -/
  | blank
  /-- Something that may close with blanks and may not. -/
  | strict
deriving DecidableEq, Repr

namespace Edge

/-- Where the inside of brackets begins. -/
def inside : Edge → Edge
  | .start | .gap | .attachedGap | .blank => .start
  | _ => .bracket

/-- What text that opens with ink leads to; `next` is what it closes with. -/
def afterInk (e next : Edge) : Option Edge :=
  match e with
  | .chain | .gap => none
  | _ => some next

/-- What text that opens with blanks leads to; `bare` says whether they are all there is, and `next`
what the text closes with. -/
def afterBlanks (e : Edge) (bare : Bool) (next : Edge) : Option Edge :=
  match e with
  | .slot | .firm => some next
  | .leading | .chain => some (if bare then .gap else next)
  | .attached => if bare then some .attachedGap else none
  | .start | .bracket | .gap | .attachedGap | .loose | .blank | .strict => none

/-- What literal text leads to. -/
def afterText (e : Edge) (t : Text) : Option Edge :=
  let next := if t.endsBlank then .blank else .firm
  if t.startsBlank then e.afterBlanks t.words.isEmpty next else e.afterInk next

/-- What something leads to that is always there; `body` is what its inside leads to. -/
def afterSolid (e body : Edge) : Option Edge :=
  match e, body with
  | .chain, _ | .gap, _ => none
  | _, .firm => some .firm
  | _, .strict => some .strict
  | _, _ => none

/-- What an optional part leads to; `body` is what its inside leads to. -/
def afterOptional (e body : Edge) : Option Edge :=
  match body with
  | .firm | .leading | .loose =>
    match e with
    | .start => some .leading
    | .slot => some .attached
    | .gap => some .chain
    | .leading | .loose => some .loose
    | .attached | .firm | .blank => some .firm
    | .strict => some .strict
    | .bracket | .chain | .attachedGap => none
  | .blank | .strict =>
    match e with
    | .bracket | .chain | .gap | .attachedGap => none
    | _ => some .strict
  | _ => none

/-- What a wildcard leads to. -/
def afterWildcard : Edge → Edge
  | .start | .bracket | .leading | .chain | .gap | .loose => .loose
  | .slot | .attached | .attachedGap | .firm | .blank => .firm
  | .strict => .strict

/-- What a slot leads to. -/
def afterSlot : Edge → Option Edge
  | .bracket | .chain | .gap => none
  | _ => some .slot

/-- What one of two alternatives leads to. -/
def either : Edge → Edge → Option Edge
  | .firm, .firm => some .firm
  | .firm, .strict | .blank, .firm | .blank, .strict | .strict, .firm | .strict, .strict =>
    some .strict
  | _, _ => none

end Edge

namespace Node

mutual

/-- What a tree leads to, if it is well spaced there. -/
def after (e : Edge) : Node → Option Edge
  | .sequence children => (afterAll e.inside children).bind e.afterSolid
  | .literal t => e.afterText t
  | .optional child => (after e.inside child).bind e.afterOptional
  | .choice _ alternatives => (afterEach e.inside alternatives).bind e.afterSolid
  | .negation .. => none
  | .wildcard => some e.afterWildcard
  | .argument .. | .assertion .. => e.afterSlot

/-- What trees lead to, one after the other. -/
def afterAll (e : Edge) : List Node → Option Edge
  | [] => some e
  | n :: ns => (after e n).bind fun e => afterAll e ns

/-- What any one of the trees leads to. -/
def afterEach (e : Edge) : List Node → Option Edge
  | [] => some .firm
  | n :: ns => (after e n).bind fun b => (afterEach e ns).bind b.either

end

end Node
end StepMatch
