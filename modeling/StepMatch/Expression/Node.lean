import StepMatch.Expression.Token

/-!
# Expression trees

What an expression means before it is matched: literal text, optional parts, choices, negations,
wildcards and slots. Every tree can be written back as an expression; structural characters of
literals are escaped again.
-/

namespace StepMatch

/-- Whether a negation excludes a single word or a phrase of several. -/
inductive NegationScope where
  | word
  | phrase
deriving DecidableEq, Repr

/-- The brackets around a choice. A bare choice stands between words, without any. -/
inductive Delimiter where
  | bare
  | parenthesis
  | bracket
deriving DecidableEq, Repr

namespace Delimiter

/-- The opening bracket of a choice. -/
def opening : Delimiter → Text
  | .bare => []
  | .parenthesis => ['(']
  | .bracket => ['[']

/-- The closing bracket of a choice. -/
def closing : Delimiter → Text
  | .bare => []
  | .parenthesis => [')']
  | .bracket => [']']

end Delimiter

/-- A node of the tree of an expression. -/
inductive Node where
  /-- Parts in order. -/
  | sequence (children : List Node)
  /-- Literal text, escapes resolved. -/
  | literal (text : Text)
  /-- A part that may be absent. -/
  | optional (child : Node)
  /-- One of several alternatives. -/
  | choice (delimiter : Delimiter) (alternatives : List Node)
  /-- A part that must not stand here. -/
  | negation (scope : NegationScope) (child : Node)
  /-- A standalone star: any text. -/
  | wildcard
  /-- An argument slot: what stands between the braces, and the byte offset of the first brace. -/
  | argument (text : Text) (position : Nat)
  /-- An assertion slot: what stands between the braces, and the byte offset of the first brace. -/
  | assertion (text : Text) (position : Nat)
deriving Repr

/-- Literal text with a backslash before each structural character. -/
def escapeLiteral (t : Text) : Text :=
  t.flatMap fun c => if isStructural c then ['\\', c] else [c]

namespace Node

/-- One part stands for itself, several form a sequence. -/
def ofParts : List Node → Node
  | [n] => n
  | ns => .sequence ns

/-- The parts of a sequence; any other node is its own only part. -/
def parts : Node → List Node
  | .sequence children => children
  | n => [n]

/-- Whether the operand of a negation can be written without brackets of its own. -/
def standsAlone (scope : NegationScope) : Node → Bool
  | .literal _ => scope == .word
  | .choice .bracket _ => true
  | _ => false

mutual

/-- The tree as an expression. -/
def toExpression : Node → Text
  | .sequence children => concatExpression children
  | .literal t => escapeLiteral t
  | .optional child => '(' :: toExpression child ++ [')']
  | .choice delimiter alternatives =>
    delimiter.opening ++ choiceExpression alternatives ++ delimiter.closing
  | .negation scope child =>
    if child.standsAlone scope then '^' :: toExpression child
    else '^' :: '[' :: toExpression child ++ [']']
  | .wildcard => ['*']
  | .argument t _ => '{' :: t ++ ['}']
  | .assertion t _ => '{' :: '{' :: t ++ ['}', '}']

/-- Trees written one after the other. -/
def concatExpression : List Node → Text
  | [] => []
  | n :: ns => toExpression n ++ concatExpression ns

/-- Trees written with a bar between neighbours. -/
def choiceExpression : List Node → Text
  | [] => []
  | [n] => toExpression n
  | n :: ns => toExpression n ++ '|' :: choiceExpression ns

end

mutual

/-- Whether an argument or assertion slot occurs anywhere in the tree. -/
def containsSlot : Node → Bool
  | .sequence children => anySlot children
  | .choice _ alternatives => anySlot alternatives
  | .optional child => containsSlot child
  | .negation _ child => containsSlot child
  | .argument .. => true
  | .assertion .. => true
  | .literal _ => false
  | .wildcard => false

/-- Whether a slot occurs in any of the trees. -/
def anySlot : List Node → Bool
  | [] => false
  | n :: ns => containsSlot n || anySlot ns

end

end Node
end StepMatch
