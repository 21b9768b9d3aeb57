import StepMatch.Proofs.Pattern.Fragments

/-!
# Patterns and what is written

Behind the pattern of a tree stands the tree as it is written, whatever its regex has come to: brackets are
put around the piece of what stands in them, and a merge keeps the pieces of both sides in order.
-/

namespace StepMatch

namespace Pattern

variable {p : Pattern} {n : Node} {ns : List Node}

mutual

/-- A tree without slots has a pattern, behind which stands the tree as it is written. -/
theorem exists_literal : ∀ {n : Node}, n.containsSlot = false →
    ∃ p, ofNode n = .ok p ∧ p.literal = n.toExpression
  | .sequence _, h => by
    rw [Node.containsSlot] at h
    rw [ofNode, Node.toExpression]
    exact exists_literal_concat none h
  | .literal _, _ | .wildcard, _ => ⟨_, by rw [ofNode], by rw [Node.toExpression]⟩
  | .optional _, h => by
    rw [Node.containsSlot] at h
    obtain ⟨p, made, literal⟩ := exists_literal h
    exact ⟨_, by rw [ofNode, made]; rfl, by simp [Node.toExpression, literal]⟩
  | .choice .., h => by
    rw [Node.containsSlot] at h
    obtain ⟨rs, made⟩ := exists_regexes_of_slotFree h
    exact ⟨_, by rw [ofNode, made]; rfl, rfl⟩
  | .negation .., h => by
    rw [Node.containsSlot] at h
    obtain ⟨p, made, -⟩ := exists_literal h
    exact ⟨_, by rw [ofNode, made]; rfl, rfl⟩
  | .argument .., h | .assertion .., h => by cases h

/-- Neighbours merge with what stands before them into a pattern, behind which stands all of it. -/
theorem exists_literal_concat : ∀ {ns : List Node} (merged : Option Pattern), Node.anySlot ns = false →
    ∃ p, concat merged ns = .ok p ∧
      p.literal = (merged.elim [] Pattern.literal) ++ Node.concatExpression ns
  | [], merged, _ => by
    refine ⟨_, by rw [concat], ?_⟩
    cases merged <;> simp [Node.concatExpression]
  | n :: ns, merged, h => by
    rw [Node.anySlot, Bool.or_eq_false_iff] at h
    obtain ⟨p, made, literal⟩ := exists_literal h.1
    rw [concat, made, Node.concatExpression, ← literal]
    obtain ⟨q, made, literal⟩ := exists_literal_concat
      (some (match merged with | some m => m.merge p | none => p)) h.2
    refine ⟨q, made, ?_⟩
    rw [literal]
    cases merged <;> simp [merge]

theorem exists_regexes_of_slotFree : ∀ {ns : List Node}, Node.anySlot ns = false →
    ∃ rs, regexes ns = .ok rs
  | [], _ => ⟨_, rfl⟩
  | n :: ns, h => by
    rw [Node.anySlot, Bool.or_eq_false_iff] at h
    obtain ⟨p, made, -⟩ := exists_literal h.1
    obtain ⟨rs, others⟩ := exists_regexes_of_slotFree h.2
    exact ⟨p.regex :: rs, by rw [regexes, made, others]; rfl⟩

end

theorem literal_of_ofNode (made : ofNode n = .ok p) : p.literal = n.toExpression := by
  obtain ⟨q, made', literal⟩ := exists_literal (containsSlot_of_ofNode made)
  rwa [← Except.ok.inj (made'.symm.trans made)]

/-- What has been merged already stays in front. -/
theorem concat_some_append (m : Pattern) (ns ms : List Node) :
    concat (some m) (ns ++ ms) = (concat (some m) ns).bind fun q => concat (some q) ms := by
  induction ns generalizing m with
  | nil => rfl
  | cons n ns ih =>
    rw [List.cons_append, concat, concat]
    cases ofNode n with
    | error fault => rfl
    | ok p => exact ih (m.merge p)

/-- The last neighbour is merged last. -/
theorem concat_append_singleton (ne : ns ≠ []) (n : Node) :
    concat none (ns ++ [n]) = (concat none ns).bind fun q => (ofNode n).map q.merge := by
  have last : ∀ q : Pattern, concat (some q) [n] = (ofNode n).map q.merge := by
    intro q
    rw [concat]
    cases ofNode n <;> rfl
  obtain ⟨k, ns, rfl⟩ := List.exists_cons_of_ne_nil ne
  rw [List.cons_append, concat, concat]
  cases ofNode k with
  | error fault => rfl
  | ok p =>
    show concat (some p) (ns ++ [n]) = (concat (some p) ns).bind _
    simp only [concat_some_append, last]

theorem concat_merge {q : Pattern} (ne : ns ≠ []) (merged : concat none ns = .ok q) (made : ofNode n = .ok p) :
    concat none (ns ++ [n]) = .ok (q.merge p) := by
  rw [concat_append_singleton ne, merged]
  exact congrArg (Except.map q.merge) made

end Pattern
end StepMatch
