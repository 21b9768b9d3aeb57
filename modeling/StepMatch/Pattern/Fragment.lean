import StepMatch.Pattern.Rendering
import StepMatch.Expression.Grammar
import StepMatch.Expression.Slot

/-!
# The fragments of an expression

An expression falls into slots and the patterns between them, one pattern for each run of
neighbours without slots.
-/

namespace StepMatch

/-- A piece of an expression, not yet bound to types or factories. -/
inductive Fragment where
  | pattern (p : Pattern)
  | argument (slot : ArgumentSlot)
  | assertion (slot : AssertionSlot)
deriving DecidableEq, Repr

namespace Fragment

/-- Adds a pattern after the fragments so far, last one first; it merges with a pattern there. -/
def pushPattern (p : Pattern) : List Fragment → List Fragment
  | .pattern q :: before => .pattern (q.merge p) :: before
  | before => .pattern p :: before

/-- Adds a part of the expression after the fragments so far, last one first. -/
def push (before : List Fragment) : Node → Except Fault (List Fragment)
  | .argument t position => .ok (.argument (.ofText t position) :: before)
  | .assertion t position => .ok (.assertion ⟨t.asString, position⟩ :: before)
  | n => (Pattern.ofNode n).map fun p => pushPattern p before

/-- The fragments of a tree, in order. -/
def ofNode (n : Node) : Except Fault (List Fragment) :=
  (n.parts.foldlM push []).map List.reverse

/-- The fragments of an expression, in order. -/
def ofExpression (expression : Text) : Except Fault (List Fragment) :=
  (Node.parse expression).bind ofNode

end Fragment
end StepMatch
