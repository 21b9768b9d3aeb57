import StepMatch.Proofs.Expression.Stars
import StepMatch.Proofs.Pattern.Merging
import StepMatch.Proofs.Pattern.Writing

/-!
# What a pattern tells of its tree

A merge is settled by the texts of two patterns, and never sees a tree. Still it cannot be misled: whatever
literal text says, it is escaped in the regex and in the piece of the expression behind it. So a pattern counts
as optional, or as a wildcard, only if its tree is one, and its regex closes with blanks only if literal text
does that the tree closes with. A merge keeps what its right side closes with.
-/

namespace StepMatch

/-- What the tree closes with is literal text that closes with a blank. -/
inductive Node.ClosesBlank : Node → Prop where
  | literal {t : Text} (blank : t.endsBlank = true) : ClosesBlank (.literal t)
  | sequence {children : List Node} {last : Node} (own : children.getLast? = some last)
    (inner : ClosesBlank last) : ClosesBlank (.sequence children)

theorem Node.closesBlank_sequence_iff {front : List Node} {last : Node} :
    (Node.sequence (front ++ [last])).ClosesBlank ↔ last.ClosesBlank := by
  refine ⟨fun h => ?_, fun h => .sequence List.getLast?_concat h⟩
  cases h with
  | sequence own inner =>
    rw [List.getLast?_concat] at own
    exact Option.some.inj own ▸ inner

namespace Pattern

variable {p q : Pattern} {n : Node} {t u : Text}

/-! ### Optional patterns -/

/-- The pattern of an optional part, and no other, counts as optional. -/
theorem isOptional_iff (formed : n.Formed) (made : ofNode n = .ok p) :
    p.isOptional = true ↔ ∃ child, n = .optional child := by
  constructor
  · intro optional
    rw [isOptional, Bool.and_eq_true_iff] at optional
    obtain ⟨question, single⟩ := optional
    cases formed with
    | @sequence children two each =>
      -- the expression goes on after the first part, so the part is no group around all of it
      obtain _ | ⟨a, _ | ⟨b, ns⟩⟩ := children
      · simp at two
      · simp at two
      · have slotFree := containsSlot_of_ofNode made
        rw [Node.containsSlot, Node.anySlot_eq_false] at slotFree
        obtain ⟨first, own⟩ := exists_literal (slotFree a List.mem_cons_self)
        have joinable := (hasJoinable (each a List.mem_cons_self) first own.1).1
        have more : Node.concatExpression (b :: ns) ≠ [] := by
          rw [Node.concatExpression]
          exact List.append_ne_nil_of_left_ne_nil (each b (by simp)).toExpression_ne_nil _
        rw [literal_of_ofNode made, Node.toExpression, Node.concatExpression, ← own.2,
          joinable.several _ more] at single
        cases single
    | literal =>
      cases made
      rw [not_isSingleGroup_of_head (head?_escapeLiteral _)] at single
      cases single
    | @optional child => exact ⟨child, rfl⟩
    | choice =>
      rw [ofNode] at made
      obtain ⟨rs, -, rfl⟩ := ok_of_map made
      rw [List.getLast?_concat] at question
      exact absurd question (by decide)
    | @negation scope child =>
      rw [literal_of_ofNode made, Node.toExpression,
        not_isSingleGroup_of_head (by split <;> simp)] at single
      cases single
    | wildcard =>
      cases made
      exact absurd single (by decide)
    | argument | assertion => cases made
  · rintro ⟨child, rfl⟩
    cases formed with
    | optional inner =>
      rw [ofNode] at made
      obtain ⟨q, own, rfl⟩ := ok_of_map made
      have balanced := (hasJoinable inner q own).1.balanced
      rw [isOptional, List.getLast?_concat, balanced.isSingleGroup]
      rfl

/-! ### Blanks that a regex closes with -/

theorem not_blankTail_suffix (last : t.getLast? ≠ some ')') : ¬ blankTail <:+ t := by
  rintro ⟨u, rfl⟩
  simp [blankTail] at last

theorem blankTail_suffix_iff_isSome : blankTail <:+ t ↔ (t.withoutEnding? blankTail).isSome = true := by
  constructor
  · rintro ⟨u, rfl⟩
    rw [withoutEnding?_append]
    rfl
  · intro some
    obtain ⟨u, e⟩ := Option.isSome_iff_exists.1 some
    exact ⟨u, (withoutEnding?_eq_some_iff.1 e).symm⟩

/-- Brackets close with blanks only if what stands in them does. -/
theorem not_blankTail_suffix_brackets (ends : ∀ v, ¬ Regex.blanks <:+ v ++ t) :
    ¬ blankTail <:+ '(' :: t ++ [')'] := by
  rintro ⟨u, e⟩
  have e : u ++ Regex.blanks ++ [')'] = ['('] ++ t ++ [')'] := by simpa [blankTail, Regex.blanks] using e
  exact ends ['('] ⟨u, List.append_inj_left' e rfl⟩

/-- What stands in front of a bracket that opens does not matter. -/
theorem blankTail_suffix_append_iff (u t : Text) : blankTail <:+ u ++ '(' :: t ↔ blankTail <:+ t := by
  have behind : t <:+ u ++ '(' :: t := ⟨u ++ ['('], by simp⟩
  refine ⟨fun h => ?_, fun h => h.trans behind⟩
  obtain short | long := List.suffix_or_suffix_of_suffix h ⟨u, rfl⟩
  · obtain same | short := List.suffix_cons_iff.1 short
    · exact absurd (List.cons.inj same).1 (by decide)
    · exact short
  · exact absurd (long.mem List.mem_cons_self) (by decide)

theorem blankTail_suffix_blankHead_iff (more : t.head? ≠ some ')') :
    blankTail <:+ blankHead ++ t ↔ blankTail <:+ t := by
  rw [show blankHead ++ t = [] ++ '(' :: '\\' :: 's' :: '+' :: t from rfl, blankTail_suffix_append_iff]
  have lone : t ≠ [')'] := by
    rintro rfl
    exact more rfl
  simp [List.suffix_cons_iff, blankTail, Ne.symm lone]

theorem Group.blankTail_suffix_write_iff (g : Group) :
    blankTail <:+ g.write ↔ g.relax?.isSome = true := by
  have same := congrArg Option.isSome (withoutEnding?_blankTail [.group g])
  rw [writeRow, writeRow, List.append_nil, Option.isSome_map, Option.isSome_map, Part.write] at same
  rw [blankTail_suffix_iff_isSome, same, relaxRow?]
  simp

/-- Literal text is a group that closes with blanks if the text does. -/
theorem blankTail_suffix_literalRegex_iff (ne : t ≠ []) :
    blankTail <:+ literalRegex t ↔ t.endsBlank = true := by
  rw [literalRegex_eq, Group.blankTail_suffix_write_iff, literalGroup]
  split
  · rename_i none
    have blank : t.words = [] := by rw [← map_wordsOf, none, List.map_nil]
    rw [Text.startsBlank_of_words_eq_nil ne blank, Text.endsBlank_of_words_eq_nil ne blank]
    exact iff_of_true rfl rfl
  · cases t.endsBlank with
    | true => exact iff_of_true rfl rfl
    | false => exact iff_of_false (by simp [Space.ofLead, Group.relax?]) (by decide)

/-- A merge keeps what its right side closes with. -/
theorem blankTail_suffix_mergeRegex_iff (units : IsUnits q.regex) :
    blankTail <:+ mergeRegex p q ↔ blankTail <:+ q.regex := by
  obtain ⟨v, opens⟩ : ∃ v, q.regex = '(' :: v := by
    have head := units.head?_eq
    cases e : q.regex with
    | nil => simp [e] at head
    | cons c v => exact ⟨v, by simpa [e] using head⟩
  have kept : ∀ u, blankTail <:+ u ++ q.regex ↔ blankTail <:+ q.regex := by
    intro u
    rw [opens, blankTail_suffix_append_iff, ← blankTail_suffix_append_iff []]
    rfl
  have closed : q.isOptional = true → ¬ blankTail <:+ q.regex := by
    intro optional
    have last := eq_of_beq (Bool.and_eq_true_iff.1 optional).1
    exact not_blankTail_suffix (by simp [last])
  have quantified : ∀ u : Text, ¬ blankTail <:+ u ++ ")?".toList := by
    intro u
    refine not_blankTail_suffix ?_
    rw [List.getLast?_append_of_ne_nil _ (by decide)]
    decide
  rw [mergeRegex]
  split
  · rename_i first found optional
    exact iff_of_false (quantified _) (closed optional)
  · split
    · rename_i optional
      rw [spacedOptional, ← List.append_assoc]
      exact iff_of_false (quantified _) (closed (Bool.and_eq_true_iff.1 optional).2)
    · split
      · exact kept _
      · rw [absorbRegex]
        split
        · rename_i inner rest found padded
          rw [paddedRest?, Option.filter_eq_some_iff, withoutOpening?_eq_some_iff] at padded
          have e : absorbBlanks inner rest = "(?:".toList ++ inner ++ "\\s+)?".toList ++ '(' :: rest := by
            simp [absorbBlanks]
          rw [padded.1, blankTail_suffix_blankHead_iff (by simpa using padded.2), e,
            blankTail_suffix_append_iff]
        · exact kept _

/-- What is merged closes with blanks if its last part does. -/
theorem blankTail_suffix_concat_iff {front : List Node} {last : Node} (formed : last.Formed)
    (own : ∀ p, ofNode last = .ok p → (blankTail <:+ p.regex ↔ last.ClosesBlank))
    (merged : concat none (front ++ [last]) = .ok q) : blankTail <:+ q.regex ↔ last.ClosesBlank := by
  by_cases lone : front = []
  · subst lone
    obtain ⟨p, made, done⟩ := ok_of_bind merged
    cases done
    exact own p made
  · rw [concat_append_singleton lone] at merged
    obtain ⟨m, -, merged⟩ := ok_of_bind merged
    obtain ⟨p, made, rfl⟩ := ok_of_map merged
    exact (blankTail_suffix_mergeRegex_iff (hasJoinable formed p made).1.units).trans (own p made)

/-- The regex of a tree closes with blanks exactly if literal text does that the tree closes with. -/
theorem blankTail_suffix_iff (formed : n.Formed) (made : ofNode n = .ok p) :
    blankTail <:+ p.regex ↔ n.ClosesBlank := by
  induction formed generalizing p with
  | @sequence children two each ih =>
    obtain ⟨front, last, rfl⟩ := (List.eq_nil_or_concat children).resolve_left (by rintro rfl; simp at two)
    rw [List.concat_eq_append] at *
    have mem : last ∈ front ++ [last] := by simp
    rw [ofNode] at made
    rw [Node.closesBlank_sequence_iff]
    exact blankTail_suffix_concat_iff (each last mem) (fun p => ih last mem) made
  | @literal t ne =>
    cases made
    refine (blankTail_suffix_literalRegex_iff ne).trans ⟨.literal, ?_⟩
    rintro ⟨blank⟩
    exact blank
  | optional =>
    rw [ofNode] at made
    obtain ⟨q, -, rfl⟩ := ok_of_map made
    refine iff_of_false (not_blankTail_suffix (by simp)) ?_
    rintro ⟨⟩
  | @choice delimiter alternatives two each =>
    rw [ofNode] at made
    obtain ⟨rs, inner, rfl⟩ := ok_of_map made
    obtain ⟨length, units, -⟩ := isUnits_of_regexes (fun n mem => hasJoinable (each n mem)) inner
    refine iff_of_false ?_ (by rintro ⟨⟩)
    obtain _ | ⟨t, ts⟩ := rs
    · simp only [List.length_nil] at length
      omega
    · obtain ⟨first, others⟩ := List.forall_mem_cons.1 units
      exact not_blankTail_suffix_brackets (isBody_joinWith first others).2.2
  | @negation scope child =>
    rw [ofNode] at made
    obtain ⟨q, -, rfl⟩ := ok_of_map made
    refine iff_of_false (not_blankTail_suffix ?_) (by rintro ⟨⟩)
    rw [List.getLast?_append_of_ne_nil _ (List.cons_ne_nil _ _)]
    cases scope <;> decide
  | wildcard =>
    cases made
    refine iff_of_false (fun h => ?_) (by rintro ⟨⟩)
    exact absurd h (by decide)
  | argument | assertion => cases made

end Pattern
end StepMatch
