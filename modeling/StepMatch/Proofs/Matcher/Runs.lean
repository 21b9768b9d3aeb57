import Mathlib.Data.List.SplitBy
import StepMatch.Proofs.Matcher.Binding
import StepMatch.Proofs.Matcher.Reconstruction
import StepMatch.Proofs.Pattern.Writing

/-!
# The runs of an expression

The parts of an expression fall into slots and runs of neighbours without slots. Each run makes one pattern,
and the piece of the expression behind it is the run as it is written: a merge keeps both pieces, in whatever
way it settles the regexes.
-/

namespace StepMatch

namespace Node

mutual

/-- The slots of the tree, in order. -/
def slots : Node → List Node
  | .sequence children => concatSlots children
  | .choice _ alternatives => concatSlots alternatives
  | .optional child => slots child
  | .negation _ child => slots child
  | .argument t position => [.argument t position]
  | .assertion t position => [.assertion t position]
  | .literal _ => []
  | .wildcard => []

/-- The slots of several trees, in order. -/
def concatSlots : List Node → List Node
  | [] => []
  | n :: ns => slots n ++ concatSlots ns

end

/-- Neighbours without a slot between them, as far as they go. A slot stands alone. -/
def runs (ns : List Node) : List (List Node) := ns.splitBy fun n m => !n.isSlot && !m.isSlot

mutual

theorem slots_of_slotFree : ∀ {n : Node}, n.containsSlot = false → n.slots = []
  | .sequence _, h | .choice .., h => by
    rw [containsSlot] at h
    rw [slots, concatSlots_of_slotFree h]
  | .optional _, h | .negation .., h => by
    rw [containsSlot] at h
    rw [slots, slots_of_slotFree h]
  | .literal _, _ | .wildcard, _ => by rw [slots]
  | .argument .., h | .assertion .., h => by cases h

theorem concatSlots_of_slotFree : ∀ {ns : List Node}, anySlot ns = false → concatSlots ns = []
  | [], _ => rfl
  | n :: ns, h => by
    rw [anySlot, Bool.or_eq_false_iff] at h
    rw [concatSlots, slots_of_slotFree h.1, concatSlots_of_slotFree h.2, List.append_nil]

end

theorem Outer.slots {n : Node} (h : n.Outer) : n.slots = [n].filter isSlot := by
  cases h with
  | inner own => rw [slots_of_slotFree own.containsSlot, List.filter_singleton, own.isSlot]; rfl
  | words _ each =>
    have slotFree : anySlot _ = false := anySlot_eq_false.2 fun n hn => (each n hn).inner.containsSlot
    rw [Node.slots, concatSlots_of_slotFree slotFree]
    rfl
  | argument | assertion => rw [Node.slots]; rfl

/-- The slots of a tree stand among its parts, if none stands inside brackets. -/
theorem slots_eq_filter_parts {n : Node} (outer : ∀ m ∈ n.parts, m.Outer) :
    n.slots = n.parts.filter isSlot := by
  have each : ∀ ns : List Node, (∀ m ∈ ns, m.Outer) → concatSlots ns = ns.filter isSlot := by
    intro ns outer
    induction ns with
    | nil => rfl
    | cons m ns ih =>
      obtain ⟨own, outer⟩ := List.forall_mem_cons.1 outer
      rw [concatSlots, own.slots, ih outer, ← List.filter_append, List.singleton_append]
  rw [← each n.parts outer]
  cases n with
  | sequence children => rw [slots, parts]
  | _ => simp [parts, concatSlots]

end Node

namespace Fragment

variable {f : Fragment} {before after fragments : List Fragment} {run ns : List Node} {n : Node}
  {p q : Pattern}

/-- The fragment is what a slot or a run makes. -/
inductive Covers : Fragment → List Node → Prop where
  | argument {t : Text} {position : Nat} :
    Covers (.argument (.ofText t position)) [.argument t position]
  | assertion {t : Text} {position : Nat} :
    Covers (.assertion ⟨t.asString, position⟩) [.assertion t position]
  | pattern {p : Pattern} {run : List Node} (ne : run ≠ []) (slotFree : ∀ n ∈ run, n.isSlot = false)
    (merged : Pattern.concat none run = .ok p) (literal : p.literal = Node.concatExpression run) :
    Covers (.pattern p) run

theorem Covers.ne_nil (h : Covers f run) : run ≠ [] := by
  cases h with
  | argument | assertion => exact List.cons_ne_nil _ _
  | pattern ne => exact ne

/-- A slot is what a slot makes. -/
theorem Covers.isSlot (h : Covers f run) : ∀ n ∈ run, n.isSlot = f.isSlot := by
  cases h with
  | argument | assertion => exact List.forall_mem_singleton.2 rfl
  | pattern _ slotFree => exact slotFree

/-- No slot stands in a run, but for one that stands alone. -/
theorem Covers.isChain (h : Covers f run) : run.IsChain fun n m => (!n.isSlot && !m.isSlot) = true := by
  cases h with
  | argument | assertion => exact .singleton _
  | pattern _ slotFree =>
    refine List.Pairwise.isChain (List.pairwise_of_forall_mem_list fun n hn m hm => ?_)
    rw [slotFree n hn, slotFree m hm]
    rfl

theorem covers_singleton (passed : n.isSlot = false) (made : Pattern.ofNode n = .ok p) :
    Covers (.pattern p) [n] := by
  refine .pattern (List.cons_ne_nil _ _) (List.forall_mem_singleton.2 passed) ?_ ?_
  · rw [Pattern.concat, made]
    rfl
  · simp [Node.concatExpression, Pattern.literal_of_ofNode made]

/-- A run that goes on makes the pattern that is merged. -/
theorem Covers.append (h : Covers (.pattern q) run) (passed : n.isSlot = false)
    (made : Pattern.ofNode n = .ok p) : Covers (.pattern (q.merge p)) (run ++ [n]) := by
  cases h with
  | pattern ne slotFree merged literal =>
    refine .pattern (by simp) (fun m hm => ?_) (Pattern.concat_merge ne merged made) ?_
    · obtain hm | hm := List.mem_append.1 hm
      · exact slotFree m hm
      · rwa [List.mem_singleton.1 hm]
    · rw [Pattern.merge, Node.concatExpression_append, literal, Pattern.literal_of_ofNode made]
      simp [Node.concatExpression]

/-- The fragments, last one first, are what all the parts so far make, and no two patterns are
neighbours. -/
def Tiles (before : List Fragment) (ns : List Node) : Prop :=
  ∃ rs, List.Forall₂ Covers before rs ∧ rs.reverse.flatten = ns ∧
    before.IsChain fun f g => f.isSlot = true ∨ g.isSlot = true

theorem tiles_nil : Tiles [] [] := ⟨[], .nil, rfl, .nil⟩

/-- A fragment that is no pattern, or has none before it, is added by itself. -/
theorem Tiles.cons (h : Tiles before ns) (own : Covers f run)
    (apart : ∀ g ∈ before.head?, f.isSlot = true ∨ g.isSlot = true) :
    Tiles (f :: before) (ns ++ run) := by
  obtain ⟨rs, covers, rfl, chain⟩ := h
  exact ⟨run :: rs, .cons own covers, by simp, chain.cons apart⟩

theorem Tiles.pushPattern (h : Tiles before ns) (passed : n.isSlot = false)
    (made : Pattern.ofNode n = .ok p) : Tiles (pushPattern p before) (ns ++ [n]) := by
  have lone := covers_singleton passed made
  match before with
  | [] => exact h.cons lone (by simp)
  | .argument _ :: _ | .assertion _ :: _ => exact h.cons lone (by simp [Fragment.isSlot])
  | .pattern q :: before =>
    obtain ⟨_, covers, rfl, chain⟩ := h
    cases covers with
    | @cons _ run _ rs own covers =>
      refine ⟨(run ++ [n]) :: rs, .cons (own.append passed made) covers, by simp, ?_⟩
      cases before with
      | nil => exact .singleton _
      | cons g before => exact List.isChain_cons_cons.2 (List.isChain_cons_cons.1 chain)

theorem Tiles.push (h : Tiles before ns) (pushed : push before n = .ok after) :
    Tiles after (ns ++ [n]) := by
  cases slot : n.isSlot with
  | true =>
    cases n with
    | argument t position =>
      cases pushed
      exact h.cons .argument fun _ _ => .inl rfl
    | assertion t position =>
      cases pushed
      exact h.cons .assertion fun _ _ => .inl rfl
    | _ => cases slot
  | false =>
    rw [push_of_not_slot slot] at pushed
    obtain ⟨p, made, rfl⟩ := ok_of_map pushed
    exact h.pushPattern slot made

theorem Tiles.foldlM {ms : List Node} (h : Tiles before ns)
    (pushed : ms.foldlM Fragment.push before = .ok after) : Tiles after (ns ++ ms) := by
  induction ms generalizing before ns with
  | nil =>
    cases pushed
    rwa [List.append_nil]
  | cons n ms ih =>
    rw [List.foldlM_cons] at pushed
    obtain ⟨next, own, pushed⟩ := ok_of_bind pushed
    simpa using ih (h.push own) pushed

/-- What fragments cover one by one are the runs, if no two patterns are neighbours. -/
theorem runs_flatten {rs : List (List Node)} (covers : List.Forall₂ Covers fragments rs)
    (apart : fragments.IsChain fun f g => f.isSlot = true ∨ g.isSlot = true) :
    Node.runs rs.flatten = rs := by
  have each : ∀ run ∈ rs, ∃ f, Covers f run := by
    intro run mem
    obtain ⟨i, lt, rfl⟩ := List.getElem_of_mem mem
    exact ⟨_, covers.get (covers.length_eq ▸ lt) lt⟩
  refine List.splitBy_flatten (fun mem => ?_) (fun run mem => ?_) ?_
  · obtain ⟨f, own⟩ := each [] mem
    exact own.ne_nil rfl
  · obtain ⟨f, own⟩ := each run mem
    exact own.isChain
  · induction covers with
    | nil => exact .nil
    | @cons f run fragments rs own covers ih =>
      cases covers with
      | nil => exact .singleton _
      | @cons g next fragments rs own' covers =>
        rw [List.isChain_cons_cons] at apart ⊢
        refine ⟨⟨own.ne_nil, own'.ne_nil, ?_⟩, ih apart.2 fun run mem => each run ?_⟩
        · rw [own.isSlot _ (List.getLast_mem _), own'.isSlot _ (List.head_mem _)]
          obtain slot | slot := apart.1 <;> simp [slot]
        · exact List.mem_cons_of_mem _ mem

end Fragment

/-- The fragments are those of the parts of the tree, each part in one of them. -/
structure Node.IsPartitioned (n : Node) (fragments : List Fragment) : Prop where
  /-- Each slot and each run makes one fragment, in order. -/
  covers : List.Forall₂ Fragment.Covers fragments (runs n.parts)
  /-- No two patterns are neighbours. -/
  apart : fragments.IsChain fun f g => f.isSlot = true ∨ g.isSlot = true
  /-- The slots among the fragments are those of the tree, in order. -/
  slots : n.slots.map fragment? = (fragments.filter Fragment.isSlot).map some

theorem Node.isPartitioned_of_ofNode {n : Node} {fragments : List Fragment}
    (outer : ∀ m ∈ n.parts, m.Outer) (made : Fragment.ofNode n = .ok fragments) :
    n.IsPartitioned fragments := by
  have slots := Fragment.slots_of_ofNode made
  rw [← slots_eq_filter_parts outer] at slots
  obtain ⟨before, pushed, rfl⟩ := ok_of_map made
  obtain ⟨rs, covers, tiled, chain⟩ := Fragment.tiles_nil.foldlM pushed
  have apart : before.reverse.IsChain fun f g => f.isSlot = true ∨ g.isSlot = true := by
    rw [List.isChain_reverse]
    exact chain.imp fun _ _ => Or.symm
  have covers := List.rel_reverse covers
  refine ⟨?_, apart, slots⟩
  rw [← tiled.trans (List.nil_append _), Fragment.runs_flatten covers apart]
  exact covers

/-- An expression falls into its slots and one pattern for each run of parts between them. Behind a pattern
stands the expression of its run, as it does for every tree without slots. -/
theorem Node.fragments_partition :
    (∀ (expression : Text) (n : Node), parse expression = .ok n →
      ∃ fragments, Fragment.ofExpression expression = .ok fragments ∧ n.IsPartitioned fragments) ∧
      ∀ n : Node, n.containsSlot = false → ∃ p, Pattern.ofNode n = .ok p ∧ p.literal = n.toExpression := by
  refine ⟨fun expression n parsed => ?_, fun n => Pattern.exists_literal⟩
  have outer := (isWellFormed_of_parse parsed).outer
  obtain ⟨before, pushed⟩ := Fragment.exists_foldlM outer []
  have made : Fragment.ofNode n = .ok before.reverse := by
    rw [Fragment.ofNode, pushed]
    rfl
  refine ⟨before.reverse, ?_, isPartitioned_of_ofNode outer made⟩
  rw [Fragment.ofExpression, parsed]
  exact made

/-- With runs on both sides of a slot, and a tree with a choice and a negation inside an optional part. -/
theorem Node.fragments_partition_of_order : ∃ n fragments p,
    parse "add (the) * {n:integer} big|red ^ones".toList = .ok n ∧
      Fragment.ofExpression "add (the) * {n:integer} big|red ^ones".toList = .ok fragments ∧
      n.IsPartitioned fragments ∧
      (optional (.choice .parenthesis [.literal ['a'], .negation .word (.literal ['b'])])).containsSlot = false ∧
      Pattern.ofNode (.optional (.choice .parenthesis [.literal ['a'], .negation .word (.literal ['b'])])) =
        .ok p ∧ p.literal = "((a|^b))".toList := by
  obtain ⟨n, parsed, -⟩ := exists_ok (p := fun _ => true)
    (x := parse "add (the) * {n:integer} big|red ^ones".toList) (by decide +kernel)
  obtain ⟨fragments, made, partitioned⟩ := fragments_partition.1 _ n parsed
  obtain ⟨p, rendered, literal⟩ := fragments_partition.2
    (.optional (.choice .parenthesis [.literal ['a'], .negation .word (.literal ['b'])])) (by decide)
  exact ⟨n, fragments, p, parsed, made, partitioned, by decide, rendered, literal.trans (by decide)⟩

end StepMatch
