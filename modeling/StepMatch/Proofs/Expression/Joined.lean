import StepMatch.Proofs.Expression.Rereading

/-!
# Joined trees

Square brackets that only group are not written, so parts on either side of them may come together.
The joined tree is the tree with this done already: literals next to each other are one, and the parts
of a sequence stand among the parts around it. It is written as the tree is, and it has the same slots.
So if the joined tree is settled, it is what reading gives.
-/

namespace StepMatch.Node

/-- Puts a part in front of others; a literal goes on in one that they open with. -/
def consPart : Node → List Node → List Node
  | .literal t, .literal u :: ns => .literal (t ++ u) :: ns
  | n, ns => n :: ns

mutual

/-- The tree with literals that stand next to each other made one, and with no sequence in another
one. A negation keeps its operand where this would be written without brackets. -/
def joined : Node → Node
  | .sequence children => ofParts (joinedEach children)
  | .optional child => .optional (joined child)
  | .choice .bare alternatives => .choice .bare alternatives
  | .choice delimiter alternatives => .choice delimiter (joinedAlternatives alternatives)
  | .negation scope child =>
    .negation scope (if (joined child).standsAlone scope == child.standsAlone scope then joined child
      else child)
  | .literal t => .literal t
  | .wildcard => .wildcard
  | .argument t position => .argument t position
  | .assertion t position => .assertion t position

/-- Trees one after the other, joined. -/
def joinedEach : List Node → List Node
  | [] => []
  | n :: ns => (joined n).parts.foldr consPart (joinedEach ns)

/-- Each of the trees, joined. -/
def joinedAlternatives : List Node → List Node
  | [] => []
  | n :: ns => joined n :: joinedAlternatives ns

end

variable {n m : Node} {ns ms : List Node}

theorem concatExpression_parts (n : Node) : concatExpression n.parts = n.toExpression := by
  cases n with
  | sequence children => rfl
  | _ => exact List.append_nil _

theorem concatExpression_consPart (n : Node) (ns : List Node) :
    concatExpression (consPart n ns) = n.toExpression ++ concatExpression ns := by
  unfold consPart
  split
  · simp [concatExpression, toExpression, escapeLiteral_append]
  · rfl

theorem concatExpression_foldr (ms ns : List Node) :
    concatExpression (ms.foldr consPart ns) = concatExpression ms ++ concatExpression ns := by
  induction ms with
  | nil => rfl
  | cons m ms ih => rw [List.foldr_cons, concatExpression_consPart, ih, concatExpression, List.append_assoc]

mutual

/-- A tree is written as it is once it is joined. -/
theorem toExpression_joined : ∀ n : Node, n.joined.toExpression = n.toExpression
  | .sequence children => by
    rw [joined, toExpression_ofParts, concatExpression_joinedEach children]
    rfl
  | .optional child => by rw [joined, toExpression, toExpression, toExpression_joined child]
  | .choice .bare alternatives => rfl
  | .choice .parenthesis alternatives => by
    rw [joined, toExpression, toExpression, choiceExpression_joined alternatives]
    simp
  | .choice .bracket alternatives => by
    rw [joined, toExpression, toExpression, choiceExpression_joined alternatives]
    simp
  | .negation scope child => by
    rw [joined]
    split
    · rename_i same
      rw [toExpression, toExpression, eq_of_beq same, toExpression_joined child]
    · rfl
  | .literal _ | .wildcard | .argument .. | .assertion .. => rfl

theorem concatExpression_joinedEach :
    ∀ ns : List Node, concatExpression (joinedEach ns) = concatExpression ns
  | [] => rfl
  | n :: ns => by
    rw [joinedEach, concatExpression_foldr, concatExpression_joinedEach ns, concatExpression_parts,
      toExpression_joined n]
    rfl

theorem choiceExpression_joined :
    ∀ ns : List Node, choiceExpression (joinedAlternatives ns) = choiceExpression ns
  | [] => rfl
  | [n] => toExpression_joined n
  | n :: m :: ns => by
    have more : m :: ns ≠ [] := List.cons_ne_nil m ns
    have more' : joinedAlternatives (m :: ns) ≠ [] := List.cons_ne_nil _ _
    rw [joinedAlternatives, choiceExpression.eq_3 _ _ more', choiceExpression.eq_3 _ _ more,
      toExpression_joined n, choiceExpression_joined (m :: ns)]

end

/-! ## What a joined tree is like -/

theorem consPart_ne_nil (n : Node) (ns : List Node) : consPart n ns ≠ [] := by
  unfold consPart
  split <;> exact List.cons_ne_nil _ _

/-- What holds of parts and of literals that are put together holds when a part is put in front. -/
theorem forall_consPart {P : Node → Prop} (join : ∀ t u, P (.literal t) → P (.literal u) →
    P (.literal (t ++ u))) (own : P n) (each : ∀ m ∈ ns, P m) : ∀ m ∈ consPart n ns, P m := by
  unfold consPart
  split
  · obtain ⟨first, others⟩ := List.forall_mem_cons.1 each
    exact List.forall_mem_cons.2 ⟨join _ _ own first, others⟩
  · exact List.forall_mem_cons.2 ⟨own, each⟩

theorem forall_foldr {P : Node → Prop} (join : ∀ t u, P (.literal t) → P (.literal u) →
    P (.literal (t ++ u))) (own : ∀ m ∈ ms, P m) (each : ∀ m ∈ ns, P m) :
    ∀ m ∈ ms.foldr consPart ns, P m := by
  induction ms with
  | nil => exact each
  | cons m ms ih =>
    obtain ⟨first, others⟩ := List.forall_mem_cons.1 own
    exact forall_consPart join first (ih others)

/-- What holds of the parts of joined trees holds of what they are joined to. -/
theorem forall_joinedEach {P : Node → Prop} (join : ∀ t u, P (.literal t) → P (.literal u) →
    P (.literal (t ++ u))) (each : ∀ n ∈ ns, ∀ m ∈ n.joined.parts, P m) :
    ∀ m ∈ joinedEach ns, P m := by
  induction ns with
  | nil => simp [joinedEach]
  | cons n ns ih =>
    obtain ⟨own, others⟩ := List.forall_mem_cons.1 each
    exact forall_foldr join own (ih others)

theorem joinedEach_ne_nil (ne : ns ≠ []) (each : ∀ n ∈ ns, n.joined.parts ≠ []) :
    joinedEach ns ≠ [] := by
  obtain ⟨n, ns, rfl⟩ := List.exists_cons_of_ne_nil ne
  obtain ⟨m, ms, e⟩ := List.exists_cons_of_ne_nil (each n List.mem_cons_self)
  rw [joinedEach, e, List.foldr_cons]
  exact consPart_ne_nil m _

theorem joinedAlternatives_eq_map (ns : List Node) : joinedAlternatives ns = ns.map joined := by
  induction ns with
  | nil => rfl
  | cons n ns ih => rw [joinedAlternatives, ih, List.map_cons]

theorem parts_ofParts (alone : ∀ n ∈ ns, n.isSequence = false) : (ofParts ns).parts = ns := by
  match ns with
  | [] | _ :: _ :: _ => rfl
  | [n] => exact parts_of_not_sequence (alone n (List.mem_singleton_self n))

mutual

/-- No part of a joined tree is a sequence. -/
theorem isSequence_joined : ∀ n : Node, ∀ m ∈ n.joined.parts, m.isSequence = false
  | .sequence children => by
    have each := isSequence_joinedEach children
    rw [joined, parts_ofParts each]
    exact each
  | .choice delimiter _ => by
    cases delimiter <;> exact List.forall_mem_singleton.2 rfl
  | .optional _ | .negation .. | .literal _ | .wildcard | .argument .. | .assertion .. =>
    List.forall_mem_singleton.2 rfl

theorem isSequence_joinedEach : ∀ ns : List Node, ∀ m ∈ joinedEach ns, m.isSequence = false
  | [] => by simp [joinedEach]
  | n :: ns => forall_foldr (fun _ _ _ _ => rfl) (isSequence_joined n) (isSequence_joinedEach ns)

end

/-- Trees that may stand inside brackets may do so when they are joined. -/
theorem inner_joined (h : n.Inner) : n.joined.Inner := by
  have join (t u : Text) (own : (literal t).Inner) (_ : (literal u).Inner) : (literal (t ++ u)).Inner := by
    cases own with
    | literal ne => exact .literal (List.append_ne_nil_of_left_ne_nil ne u)
  induction h with
  | @sequence children two each ih =>
    have each' : ∀ m ∈ joinedEach children, m.Inner :=
      forall_joinedEach join fun n hn m hm => (ih n hn).of_mem_parts hm
    have ne : children ≠ [] := by
      rintro rfl
      simp at two
    exact inner_ofParts (joinedEach_ne_nil ne fun n hn => (ih n hn).formed.parts_ne_nil) each'
  | literal ne => exact .literal ne
  | optional _ ih => exact .optional ih
  | @choice delimiter alternatives bracketed two each ih =>
    have same : (Node.choice delimiter alternatives).joined =
        .choice delimiter (alternatives.map joined) := by
      rw [← joinedAlternatives_eq_map]
      cases delimiter with
      | bare => exact absurd rfl bracketed
      | _ => rfl
    rw [same]
    exact .choice bracketed (by simpa using two) (List.forall_mem_map.2 ih)
  | @negation scope child scope_iff inner ih =>
    rw [joined]
    split
    · exact .negation (scope_iff.trans (by rw [toExpression_joined])) ih
    · exact .negation scope_iff inner
  | wildcard => exact .wildcard

theorem outer_joined (h : n.Outer) : ∀ m ∈ n.joined.parts, m.Outer := by
  cases h with
  | inner own => exact fun m hm => .inner ((inner_joined own).of_mem_parts hm)
  | words two each => exact List.forall_mem_singleton.2 (.words two each)
  | argument trimmed ne name typeName =>
    exact List.forall_mem_singleton.2 (.argument trimmed ne name typeName)
  | assertion trimmed ne => exact List.forall_mem_singleton.2 (.assertion trimmed ne)

/-- The parts of a joined tree are those of the tree, joined. -/
theorem parts_joined (n : Node) : n.joined.parts = joinedEach n.parts := by
  have single (m : Node) (alone : m.joined.isSequence = false) : m.joined.parts = joinedEach [m] := by
    rw [joinedEach, joinedEach, parts_of_not_sequence alone, List.foldr_cons, List.foldr_nil]
    cases m.joined <;> rfl
  cases n with
  | sequence children =>
    rw [joined, parts_ofParts (isSequence_joinedEach children)]
    rfl
  | choice delimiter alternatives => exact single _ (by cases delimiter <;> rfl)
  | _ => exact single _ rfl

/-- Joining leaves slots as they are. -/
theorem filter_isSlot_joinedEach (outer : ∀ n ∈ ns, n.Outer) :
    (joinedEach ns).filter isSlot = ns.filter isSlot := by
  have front (m : Node) (ms : List Node) :
      (consPart m ms).filter isSlot = (m :: ms).filter isSlot := by
    unfold consPart
    split <;> rfl
  have fronts (ks ms : List Node) : (ks.foldr consPart ms).filter isSlot = (ks ++ ms).filter isSlot := by
    induction ks with
    | nil => rfl
    | cons k ks ih => rw [List.foldr_cons, front, List.cons_append, List.filter_cons, List.filter_cons, ih]
  induction ns with
  | nil => rfl
  | cons n ns ih =>
    obtain ⟨own, others⟩ := List.forall_mem_cons.1 outer
    have same : n.joined.parts.filter isSlot = [n].filter isSlot := by
      cases own with
      | inner own =>
        have none : n.joined.parts.filter isSlot = [] :=
          List.filter_eq_nil_iff.2 fun m hm => by simp [((inner_joined own).of_mem_parts hm).isSlot]
        rw [none, List.filter_cons_of_neg (by simp [own.isSlot]), List.filter_nil]
      | words | argument | assertion => rfl
    rw [joinedEach, fronts, List.filter_append, same, ih others, ← List.filter_append]
    rfl

/-- A joined tree is like the tree of an expression if the tree is. -/
theorem IsRooted.joined (h : n.IsRooted) : n.joined.IsRooted := by
  have outer : ∀ m ∈ n.joined.parts, m.Outer := by
    have join (t u : Text) (own : (literal t).Outer) (_ : (literal u).Outer) :
        (literal (t ++ u)).Outer := by
      obtain own | _ := own
      cases own with
      | literal ne => exact .inner (.literal (List.append_ne_nil_of_left_ne_nil ne u))
    rw [parts_joined]
    exact forall_joinedEach join fun m hm => outer_joined (h.outer m hm)
  have whole : ofParts n.joined.parts = n.joined := by
    cases n with
    | sequence children => rw [Node.joined, parts_ofParts (isSequence_joinedEach children)]
    | choice delimiter alternatives => cases delimiter <;> rfl
    | _ => rfl
  have ne : n.joined.parts ≠ [] := by
    rw [parts_joined]
    refine joinedEach_ne_nil h.formed.parts_ne_nil fun m hm => ?_
    cases h.outer m hm with
    | inner own => exact (inner_joined own).formed.parts_ne_nil
    | words | argument | assertion => exact List.cons_ne_nil _ _
  refine ⟨?_, outer, ?_⟩
  · rw [← whole]
    exact formed_ofParts ne fun m hm => (outer m hm).formed
  · rw [← countP_isAssertion_filter, parts_joined, filter_isSlot_joinedEach h.outer,
      countP_isAssertion_filter]
    exact h.once

/-! ## Settled trees are joined already -/

/-- Parts that keep apart are not joined. -/
theorem joinedEach_of_keepApart (apart : keepApart ns = true) (each : ∀ n ∈ ns, n.joined = n) :
    joinedEach ns = ns := by
  induction ns with
  | nil => rfl
  | cons n ns ih =>
    obtain ⟨own, others⟩ := List.forall_mem_cons.1 each
    simp only [keepApart, Bool.and_eq_true, Bool.not_eq_true'] at apart
    obtain ⟨⟨alone, touching⟩, later⟩ := apart
    rw [joinedEach, own, parts_of_not_sequence alone, List.foldr_cons, List.foldr_nil, ih later others]
    unfold consPart
    split
    · simp [touches, isLiteral] at touching
    · rfl

theorem joined_of_inner (inner : n.Inner) (settled : n.isSettled = true) : n.joined = n := by
  induction inner with
  | @sequence children two each ih =>
    obtain ⟨settled', apart⟩ := settled_parts settled
    have same : joinedEach children = children :=
      joinedEach_of_keepApart apart fun m hm => ih m hm (settled' m hm)
    rw [joined, same]
    exact (Formed.sequence two fun m hm => (each m hm).formed).ofParts_parts
  | literal | wildcard => rfl
  | optional _ ih => rw [joined, ih settled]
  | @choice delimiter alternatives bracketed two each ih =>
    have all : eachSettled alternatives = true → alternatives.map joined = alternatives := fun settled =>
      (List.map_congr_left fun m hm => ih m hm (eachSettled_iff.1 settled m hm)).trans (List.map_id _)
    cases delimiter with
    | bare => exact absurd rfl bracketed
    | _ =>
      rw [joined, joinedAlternatives_eq_map, all settled]
      simp
  | @negation scope child _ _ ih =>
    have same : child.joined = child := by
      cases child with
      | literal t => rfl
      | _ => exact ih (by cases scope <;> exact settled)
    rw [joined, same]
    simp

theorem joined_of_settled (rooted : n.IsRooted) (settled : n.isSettled = true) : n.joined = n := by
  obtain ⟨settled', apart⟩ := settled_parts settled
  have each : ∀ m ∈ n.parts, m.joined = m := by
    intro m hm
    cases rooted.outer m hm with
    | inner own => exact joined_of_inner own (settled' m hm)
    | words | argument | assertion => rfl
  rw [← rooted.joined.formed.ofParts_parts, parts_joined, joinedEach_of_keepApart apart each,
    rooted.formed.ofParts_parts]

/-- If the joined tree is settled, then it is what the tree is read as from what it is written as, up to
the places of its slots, and these are the slots of the tree. -/
theorem exists_parse_of_joined (rooted : n.IsRooted) (settled : n.joined.isSettled = true)
    (plain : ∀ m ∈ n.parts, m.isPlainSlot = true) :
    ∃ n', parse n.toExpression = .ok n' ∧ n'.unplaced = n.joined.unplaced := by
  rw [← toExpression_joined]
  refine exists_parse_of_settled rooted.joined settled ?_
  have join (t u : Text) (_ : (literal t).isPlainSlot = true) (_ : (literal u).isPlainSlot = true) :
      (literal (t ++ u)).isPlainSlot = true := rfl
  rw [parts_joined]
  refine forall_joinedEach join fun m hm => ?_
  have own := plain m hm
  cases rooted.outer m hm with
  | inner inner =>
    intro k hk
    cases (inner_joined inner).of_mem_parts hk <;> rfl
  | words | argument | assertion => exact List.forall_mem_singleton.2 own

end StepMatch.Node
