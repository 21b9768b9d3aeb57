import StepMatch.Proofs.Expression.Grammatical
import StepMatch.Proofs.Expression.Placeless
import StepMatch.Proofs.Expression.Slots
import StepMatch.Proofs.Text.Squeeze

/-!
# Settled trees

What a tree is written as need not be cut at the seams of the tree again: two literals that stand next
to each other become one, a negated word goes on in the text behind it, a star that touches text is no
wildcard any more. A tree is settled if nothing of this kind can happen to it.
-/

namespace StepMatch

namespace Node

/-- Whether the part is literal text. -/
def isLiteral : Node → Bool
  | .literal _ => true
  | _ => false

/-- Whether the part has parts of its own, with no brackets around them. -/
def isSequence : Node → Bool
  | .sequence _ => true
  | _ => false

/-- Whether the part is written with ink at its start that goes on a word in front of it. -/
def opensWord : Node → Bool
  | .literal t => !t.startsBlank
  | .wildcard | .choice .bare _ => true
  | _ => false

/-- Whether the part is written with ink at its end that goes on in a word behind it. -/
def closesWord : Node → Bool
  | .literal t => !t.endsBlank
  | .wildcard | .choice .bare _ | .negation .word (.literal _) => true
  | _ => false

/-- Whether two neighbours run into each other where they are written. -/
def touches (n m : Node) : Bool := n.isLiteral && m.isLiteral || n.closesWord && m.opensWord

/-- Whether the parts keep apart: none of them is a sequence, and no two neighbours touch. -/
def keepApart : List Node → Bool
  | [] => true
  | n :: ns => !n.isSequence && ns.head?.all (fun m => !n.touches m) && keepApart ns

/-- Whether a choice without brackets would start with a wildcard. -/
def startsWithStar : List Node → Bool
  | .literal t :: _ => t == ['*']
  | _ => false

mutual

/-- Whether reading what the tree is written as finds the seams of the tree again. -/
def isSettled : Node → Bool
  | .sequence children => eachSettled children && keepApart children
  | .literal t => !t.words.contains ['*']
  | .optional child => isSettled child
  | .choice .bare alternatives => !startsWithStar alternatives
  | .choice _ alternatives => eachSettled alternatives
  | .negation .word (.literal _) => true
  | .negation _ child => isSettled child
  | .wildcard | .argument .. | .assertion .. => true

/-- Whether this holds of each of the trees. -/
def eachSettled : List Node → Bool
  | [] => true
  | n :: ns => isSettled n && eachSettled ns

end

/-- Whether there are no structural characters in the text of a slot. -/
def isPlainSlot : Node → Bool
  | .argument t _ | .assertion t _ => t.all fun c => !isStructural c
  | _ => true

/-- The text that parts are written with before the first symbol that is no text. -/
def lead : List Node → Text
  | .literal t :: ns => t ++ lead ns
  | .wildcard :: ns => '*' :: lead ns
  | .choice .bare (.literal w :: _) :: _ => w
  | _ => []

variable {n m : Node} {ns : List Node} {t u : Text}

theorem eachSettled_iff : eachSettled ns = true ↔ ∀ n ∈ ns, n.isSettled = true := by
  induction ns with
  | nil => simp [eachSettled]
  | cons n ns ih => simp [eachSettled, ih]

theorem parts_of_not_sequence (h : n.isSequence = false) : n.parts = [n] := by
  cases n with
  | sequence children => cases h
  | _ => rfl

theorem isSequence_of_keepApart (h : keepApart ns = true) : ∀ n ∈ ns, n.isSequence = false := by
  induction ns with
  | nil => simp
  | cons n ns ih =>
    simp only [keepApart, Bool.and_eq_true, Bool.not_eq_true'] at h
    exact List.forall_mem_cons.2 ⟨h.1.1, ih h.2⟩

/-- The parts of a settled tree are settled, and they keep apart. -/
theorem settled_parts (h : n.isSettled = true) :
    (∀ m ∈ n.parts, m.isSettled = true) ∧ keepApart n.parts = true := by
  cases n with
  | sequence children =>
    rw [isSettled, Bool.and_eq_true, eachSettled_iff] at h
    exact h
  | _ => exact ⟨List.forall_mem_singleton.2 h, by simp [parts, keepApart, isSequence]⟩

theorem Inner.of_mem_parts (h : n.Inner) (hm : m ∈ n.parts) : m.Inner := by
  cases h with
  | sequence _ each => exact each m hm
  | _ =>
    obtain rfl := List.mem_singleton.1 hm
    constructor <;> assumption

/-- A tree is made of its parts. -/
theorem Formed.ofParts_parts (h : n.Formed) : ofParts n.parts = n := by
  cases h with
  | @sequence children two _ =>
    match children, two with
    | _ :: _ :: _, _ => rfl
  | _ => rfl

theorem Formed.parts_ne_nil (h : n.Formed) : n.parts ≠ [] := by
  cases h with
  | sequence two _ =>
    rintro rfl
    simp at two
  | _ => exact List.cons_ne_nil _ _

theorem Inner.isAssertion (h : n.Inner) : n.isAssertion = false := by
  cases h <;> rfl

/-- The alternatives of a choice after the first are written with a bar in front of each. -/
theorem choiceExpression_cons (n : Node) (ns : List Node) :
    choiceExpression (n :: ns) = n.toExpression ++ ns.flatMap fun m => '|' :: m.toExpression := by
  induction ns generalizing n with
  | nil => simp [choiceExpression]
  | cons m ns ih =>
    have more : m :: ns ≠ [] := List.cons_ne_nil m ns
    rw [choiceExpression.eq_3 n _ more, ih, List.flatMap_cons, List.cons_append]

/-- A choice without brackets is one between words. -/
theorem Outer.exists_words {alternatives : List Node} (h : (Node.choice .bare alternatives).Outer) :
    ∃ ws : List Text, alternatives = ws.map .literal ∧ 2 ≤ ws.length ∧
      ∀ w ∈ ws, w ≠ [] ∧ w.any isBlank = false := by
  cases h with
  | inner own =>
    cases own
    contradiction
  | words two each =>
    have found : ∃ ws : List Text, alternatives = ws.map .literal ∧
        ∀ w ∈ ws, w ≠ [] ∧ w.any isBlank = false := by
      clear two
      induction alternatives with
      | nil => exact ⟨[], rfl, by simp⟩
      | cons n ns ih =>
        obtain ⟨⟨w, e, ne, ink⟩, others⟩ := List.forall_mem_cons.1 each
        obtain ⟨ws, e', words⟩ := ih others
        refine ⟨w :: ws, by rw [e, e', List.map_cons], List.forall_mem_cons.2 ⟨?_, words⟩⟩
        exact ⟨ne, any_isBlank_of_ink ink⟩
    obtain ⟨ws, rfl, words⟩ := found
    exact ⟨ws, rfl, by simpa using two, words⟩

/-! ## Text and stars -/

/-- A star with a blank or nothing behind it is a wildcard. -/
theorem carve_star (edge : u.head?.all isBlank = true) :
    carve ('*' :: u) = .wildcard :: carve u := by
  have opens : ('*' == '*' && true && u.head?.all isBlank) = true := by rw [edge]; rfl
  rw [carve, carveFrom, if_pos opens]
  obtain _ | ⟨c, u⟩ := u
  · rfl
  · have blank : isBlank c = true := by simpa using edge
    have other : (c == '*') = false := by
      rw [beq_eq_false_iff_ne]
      rintro rfl
      cases blank
    rw [carve, carveFrom, carveFrom, other]
    rfl

/-- Text that closes with a blank is cut like that whatever comes behind it, unless this goes on as
literal text. -/
theorem carveFrom_append (ne : t ≠ []) (closes : t.endsBlank = true) {later : List Node}
    (star : carve u = .wildcard :: later) (fresh : Bool) :
    carveFrom fresh (t ++ u) = carveFrom fresh t ++ carve u := by
  induction t generalizing fresh with
  | nil => exact absurd rfl ne
  | cons c t ih =>
    by_cases more : t = []
    · subst more
      have blank : isBlank c = true := by simpa [Text.endsBlank] using closes
      have other : (c == '*') = false := by
        rw [beq_eq_false_iff_ne]
        rintro rfl
        cases blank
      have whole : carveFrom true u = .wildcard :: later := star
      simp only [List.cons_append, List.nil_append, carveFrom, other, blank, Bool.false_and, whole, carve]
      rfl
    · have closes' : Text.endsBlank t = true := by
        obtain ⟨d, t, rfl⟩ := List.exists_cons_of_ne_nil more
        simpa [Text.endsBlank] using closes
      have head : (t ++ u).head? = t.head? := by
        obtain ⟨d, t, rfl⟩ := List.exists_cons_of_ne_nil more
        rfl
      rw [List.cons_append, carveFrom, carveFrom, head, ih more closes', ih more closes']
      split
      · rfl
      · obtain ⟨m, ms, e⟩ := List.exists_cons_of_ne_nil (carveFrom_ne_nil more (isBlank c))
        rw [e]
        cases m <;> rfl

/-- Behind parts that do not go on in a word there is a blank, or there is no text. -/
theorem lead_edge (outer : ∀ n ∈ ns, n.Outer) (apart : ns.head?.all (fun m => !m.opensWord) = true) :
    (lead ns).head?.all isBlank = true := by
  obtain _ | ⟨m, ns⟩ := ns
  · rfl
  · have closed : m.opensWord = false := by simpa using apart
    have own := outer m List.mem_cons_self
    cases m with
    | literal t =>
      have ne : t ≠ [] := by
        cases own with
        | inner inner =>
          cases inner
          assumption
      obtain ⟨c, t, rfl⟩ := List.exists_cons_of_ne_nil ne
      have blank : isBlank c = true := by simpa [opensWord, Text.startsBlank] using closed
      simpa [lead] using blank
    | wildcard => cases closed
    | choice delimiter alternatives =>
      cases delimiter with
      | bare => cases closed
      | _ => rfl
    | _ => rfl

/-! ## Places of slots -/

/-- There are no slots inside brackets. -/
theorem Inner.unplaced_eq (h : n.Inner) : n.unplaced = n := by
  have all {ns : List Node} (each : ∀ n ∈ ns, n.unplaced = n) : ns.map Node.unplaced = ns :=
    (List.map_congr_left each).trans (List.map_id ns)
  induction h with
  | sequence _ _ ih => rw [Node.unplaced, unplacedEach_eq_map, all ih]
  | optional _ ih => rw [Node.unplaced, ih]
  | choice _ _ _ ih => rw [Node.unplaced, unplacedEach_eq_map, all ih]
  | negation _ _ ih => rw [Node.unplaced, ih]
  | literal | wildcard => rfl

/-- Only slots have places. -/
theorem Outer.unplaced_eq (h : n.Outer) : n.unplaced = n ∨ n.isSlot = true := by
  cases h with
  | inner own => exact .inl own.unplaced_eq
  | words _ each =>
    have same := (List.map_congr_left fun m hm => (each m hm).inner.unplaced_eq).trans (List.map_id _)
    exact .inl (by rw [Node.unplaced, unplacedEach_eq_map, same])
  | argument | assertion => exact .inr rfl

/-- A slot may stand at the start of the expression too. -/
theorem Outer.unplaced (h : n.Outer) : n.unplaced.Outer := by
  cases h.unplaced_eq with
  | inl same => rwa [same]
  | inr slot =>
    cases h with
    | inner own => exact absurd own.isSlot (ne_false_of_eq_true slot)
    | words => cases slot
    | argument trimmed ne name typeName => exact .argument trimmed ne name typeName
    | assertion trimmed ne => exact .assertion trimmed ne

theorem Outer.isSettled_unplaced (h : n.Outer) : n.unplaced.isSettled = n.isSettled := by
  cases h.unplaced_eq with
  | inl same => rw [same]
  | inr slot => cases n <;> first | rfl | cases slot

theorem unplaced_unplaced (h : n.Outer) : n.unplaced.unplaced = n.unplaced := by
  cases h.unplaced_eq with
  | inl same => rw [same, same]
  | inr slot => cases n <;> first | rfl | cases slot

theorem parts_unplaced (n : Node) : n.unplaced.parts = n.parts.map Node.unplaced := by
  cases n with
  | sequence children => exact unplacedEach_eq_map children
  | _ => rfl

/-- How a part is written at its ends does not depend on the places of slots. -/
theorem touches_unplaced (n m : Node) : n.unplaced.touches m.unplaced = n.touches m := by
  have literal (n : Node) : n.unplaced.isLiteral = n.isLiteral := by cases n <;> rfl
  have opens : m.unplaced.opensWord = m.opensWord := by
    cases m with
    | choice delimiter _ => cases delimiter <;> rfl
    | _ => rfl
  have closes : n.unplaced.closesWord = n.closesWord := by
    cases n with
    | choice delimiter _ => cases delimiter <;> rfl
    | negation scope child => cases scope <;> cases child <;> rfl
    | _ => rfl
  rw [touches, touches, literal, literal, opens, closes]

theorem keepApart_unplaced (ns : List Node) : keepApart (ns.map Node.unplaced) = keepApart ns := by
  have sequence (n : Node) : n.unplaced.isSequence = n.isSequence := by cases n <;> rfl
  induction ns with
  | nil => rfl
  | cons n ns ih =>
    rw [List.map_cons, keepApart, keepApart, ih, sequence, List.head?_map, Option.all_map]
    simp only [touches_unplaced]

theorem map_unplaced_filter_isSlot (ns : List Node) :
    (ns.filter isSlot).map Node.unplaced = (ns.map Node.unplaced).filter isSlot := by
  have same (n : Node) : n.unplaced.isSlot = n.isSlot := by cases n <;> rfl
  rw [List.filter_map]
  exact congrArg (List.map Node.unplaced) (List.filter_congr fun n _ => (same n).symm)

end Node

end StepMatch
