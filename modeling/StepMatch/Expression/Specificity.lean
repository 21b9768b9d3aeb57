import StepMatch.Expression.Grammar

/-!
# Specificity

How closely an expression pins down the sentences that it matches. Of two expressions the one
with more literal characters is the more specific; after that the one with fewer wildcards, and
then the one with fewer slots.
-/

namespace StepMatch

/-- The counts that decide how specific an expression is. -/
structure Specificity where
  /-- Literal characters anywhere in the expression, optional parts included. -/
  literalChars : Nat := 0
  /-- Standalone stars. -/
  wildcards : Nat := 0
  /-- Argument and assertion slots. -/
  slots : Nat := 0
deriving DecidableEq, Repr

namespace Specificity

/-- The counts of two parts together. -/
def add (a b : Specificity) : Specificity :=
  ⟨a.literalChars + b.literalChars, a.wildcards + b.wildcards, a.slots + b.slots⟩

mutual

/-- The counts of a tree. -/
def ofNode : Node → Specificity
  | .sequence children => ofNodes children
  | .choice _ alternatives => ofNodes alternatives
  | .literal t => { literalChars := t.length }
  | .optional child => ofNode child
  | .negation _ child => ofNode child
  | .wildcard => { wildcards := 1 }
  | .argument .. => { slots := 1 }
  | .assertion .. => { slots := 1 }

/-- The counts of several trees together. -/
def ofNodes : List Node → Specificity
  | [] => {}
  | n :: ns => (ofNode n).add (ofNodes ns)

end

/-- The counts of an expression. -/
def ofExpression (expression : Text) : Except Fault Specificity :=
  (Node.parse expression).map ofNode

/-- The order of specificity: greater is more specific. -/
def order (a b : Specificity) : Ordering :=
  ((compare a.literalChars b.literalChars).then (compare b.wildcards a.wildcards)).then
    (compare b.slots a.slots)

end Specificity
end StepMatch
