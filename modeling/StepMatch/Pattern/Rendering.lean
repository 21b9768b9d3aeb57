import StepMatch.Pattern.Basic
import StepMatch.Expression.Node

/-!
# The pattern of a tree

A tree without slots becomes a pattern. Literal text matches itself up to the amount of white
space between its words; a negation looks ahead and then takes a word or the rest of the line.
-/

namespace StepMatch.Pattern

/-- A group that matches literal text, any white space in it matching any other. -/
def literalRegex (t : Text) : Text :=
  let words := t.words
  let head := if t.startsBlank then Regex.blanks else []
  let tail := if !words.isEmpty && t.endsBlank then Regex.blanks else []
  '(' :: head ++ Regex.spacedWords words ++ tail ++ [')']

/-- What a negation takes once it has looked ahead. -/
def negationTail : NegationScope → Text
  | .word => ['\\', 'S', '+']
  | .phrase => ['.', '*']

/-- The fault of a slot where only patterns may stand. -/
def slotFault (n : Node) (position : Nat) : Fault :=
  ⟨.slotInsideBrackets, position, some n.toExpression⟩

mutual

/-- The pattern of a tree; slots are refused. -/
def ofNode : Node → Except Fault Pattern
  | .sequence children => concat none children
  | .literal t => .ok ⟨literalRegex t, escapeLiteral t⟩
  | .wildcard => .ok ⟨['(', '.', '*', ')'], ['*']⟩
  | .optional child =>
    (ofNode child).map fun inner =>
      ⟨atom inner.regex ++ ['?'], '(' :: inner.literal ++ [')']⟩
  | .choice delimiter alternatives =>
    (regexes alternatives).map fun inner =>
      ⟨'(' :: Text.joinWith ['|'] inner ++ [')'],
        (Node.choice delimiter alternatives).toExpression⟩
  | .negation scope child =>
    (ofNode child).map fun inner =>
      ⟨'(' :: '?' :: '!' :: inner.regex ++ ')' :: negationTail scope,
        (Node.negation scope child).toExpression⟩
  | .argument t position => .error (slotFault (.argument t position) position)
  | .assertion t position => .error (slotFault (.assertion t position) position)

/-- The pattern of neighbours in order, after what is merged already. -/
def concat (merged : Option Pattern) : List Node → Except Fault Pattern
  | [] => .ok (merged.getD ⟨[], []⟩)
  | n :: ns =>
    (ofNode n).bind fun p =>
      concat (some (match merged with | some m => m.merge p | none => p)) ns

/-- The regexes of several trees. -/
def regexes : List Node → Except Fault (List Text)
  | [] => .ok []
  | n :: ns =>
    (ofNode n).bind fun p => (regexes ns).map (p.regex :: ·)

end

end StepMatch.Pattern
