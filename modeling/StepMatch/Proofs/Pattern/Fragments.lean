import StepMatch.Proofs.Pattern.Rows
import StepMatch.Pattern.Fragment

/-!
# The patterns of an expression

A pattern is made from trees without slots alone. So every pattern among the fragments of an
expression without negations is the text of a row, however many trees were merged into it.
-/

namespace StepMatch

namespace Pattern

mutual

/-- A tree with a slot has no pattern. -/
theorem containsSlot_of_ofNode : ∀ {n : Node} {p : Pattern}, ofNode n = .ok p →
    n.containsSlot = false
  | .sequence _, _, h => by
    rw [ofNode] at h
    rw [Node.containsSlot]
    exact anySlot_of_concat h
  | .literal _, _, _ | .wildcard, _, _ => rfl
  | .optional _, _, h => by
    rw [ofNode] at h
    obtain ⟨q, hq, -⟩ := ok_of_map h
    rw [Node.containsSlot]
    exact containsSlot_of_ofNode hq
  | .choice .., _, h => by
    rw [ofNode] at h
    obtain ⟨rs, hrs, -⟩ := ok_of_map h
    rw [Node.containsSlot]
    exact anySlot_of_regexes hrs
  | .negation .., _, h => by
    rw [ofNode] at h
    obtain ⟨q, hq, -⟩ := ok_of_map h
    rw [Node.containsSlot]
    exact containsSlot_of_ofNode hq
  | .argument .., _, h | .assertion .., _, h => by cases h

/-- Nor have several trees, one of them with a slot. -/
theorem anySlot_of_concat : ∀ {ns : List Node} {merged : Option Pattern} {p : Pattern},
    concat merged ns = .ok p → Node.anySlot ns = false
  | [], _, _, _ => rfl
  | n :: ns, _, _, h => by
    rw [concat] at h
    obtain ⟨q, hq, later⟩ := ok_of_bind h
    rw [Node.anySlot, containsSlot_of_ofNode hq, anySlot_of_concat later]
    rfl

theorem anySlot_of_regexes : ∀ {ns : List Node} {rs : List Text}, regexes ns = .ok rs →
    Node.anySlot ns = false
  | [], _, _ => rfl
  | n :: ns, _, h => by
    rw [regexes] at h
    obtain ⟨q, hq, h⟩ := ok_of_bind h
    obtain ⟨rs, later, -⟩ := ok_of_map h
    rw [Node.anySlot, containsSlot_of_ofNode hq, anySlot_of_regexes later]
    rfl

end

end Pattern

namespace Fragment

/-- If the fragment is a pattern, then its regex is the text of a row. -/
def IsRow : Fragment → Prop
  | .pattern p => ∃ ps, Pattern.IsProper ps ∧ p.regex = Pattern.writeRow ps
  | .argument _ | .assertion _ => True

variable {n : Node} {before after fragments : List Fragment}

/-- What each part of a tree keeps of the fragments before it holds of all fragments. -/
theorem forall_of_ofNode {P : Fragment → Prop}
    (step : ∀ m ∈ n.parts, ∀ {before after : List Fragment}, (∀ f ∈ before, P f) →
      push before m = .ok after → ∀ f ∈ after, P f)
    (h : ofNode n = .ok fragments) : ∀ f ∈ fragments, P f := by
  obtain ⟨last, run, rfl⟩ := ok_of_map h
  have all : ∀ (ns : List Node) (before : List Fragment), (∀ m ∈ ns, m ∈ n.parts) →
      (∀ f ∈ before, P f) → ns.foldlM push before = .ok last → ∀ f ∈ last, P f := by
    intro ns
    induction ns with
    | nil =>
      rintro before - holds ⟨⟩
      exact holds
    | cons m ns ih =>
      intro before sub holds run
      obtain ⟨after, first, run⟩ := ok_of_bind run
      exact ih after (fun m hm => sub m (List.mem_cons_of_mem _ hm))
        (step m (sub m List.mem_cons_self) holds first) run
  exact fun f hf => all n.parts [] (fun _ hm => hm) (by simp) run f (List.mem_reverse.1 hf)

end Fragment
end StepMatch
