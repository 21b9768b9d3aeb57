import StepMatch.Proofs.Pattern.Sources
import StepMatch.Proofs.Pattern.Fragments

/-!
# Merging any patterns

Every pattern that a tree makes is a row of units, and so is whatever patterns are merged into
(`isJoinable_of_isMade`). A merge looks at the piece of the expression behind the pattern on the right
too, to see whether that one is optional; for a pattern to be taken so it has to be an optional group and
nothing else, which is what the piece of the expression says of it.
-/

namespace StepMatch

namespace Pattern

open Regex (IsSource IsAtom IsBody)

variable {p q : Pattern} {t u : Text} {n : Node} {ns : List Node}

section Optional

/-- Two optional groups fold into one. -/
theorem isGroup_fold (h : IsGroup t) (h' : IsGroup u) :
    IsUnit (foldOptional t u) := by
  obtain ⟨_, first⟩ := h.atom
  obtain ⟨_, second⟩ := h'.atom
  obtain ⟨_, blanks⟩ := source_blanks
  obtain ⟨_, spaced⟩ := (isGroup_grouped (balanced_blanks.append h'.balanced)
    (blanks.append second.source).body).atom
  have both := first.source.append spaced.optional
  have balanced : Balanced (t ++ (Regex.grouped (Regex.blanks ++ u) ++ ['?']) ++ '|' :: u) :=
    (h.balanced.append ((balanced_grouped (balanced_blanks.append h'.balanced)).append
      balanced_question)).append
      ((Balanced.single (c := '|') (by decide) (by decide) (by decide)).append h'.balanced)
  have e : foldOptional t u =
      Regex.grouped (t ++ (Regex.grouped (Regex.blanks ++ u) ++ ['?']) ++ '|' :: u) ++ ['?'] := by
    simp [foldOptional, Regex.grouped, Regex.blanks]
  rw [e]
  exact .optional (isGroup_grouped balanced (both.body.bar second.source.body)) (not_opens_grouped _)

/-- An optional group with blanks in front of it. -/
theorem isUnit_spaced (h : IsGroup t) : IsUnit (spacedOptional t) := by
  obtain ⟨_, own⟩ := h.atom
  obtain ⟨_, blanks⟩ := source_blanks
  have e : spacedOptional t = Regex.grouped (Regex.blanks ++ t) ++ ['?'] := by
    simp [spacedOptional, Regex.grouped, Regex.blanks]
  rw [e]
  exact .optional (isGroup_grouped (balanced_blanks.append h.balanced)
    (blanks.append own.source).body) (not_opens_grouped _)

/-- An optional group with blanks after it. -/
theorem isUnit_absorbed (h : IsGroup t) : IsUnit (Regex.grouped (t ++ Regex.blanks) ++ ['?']) := by
  obtain ⟨_, own⟩ := h.atom
  obtain ⟨_, blanks⟩ := source_blanks
  exact .optional (isGroup_grouped (h.balanced.append balanced_blanks)
    (own.source.append blanks).body) (not_opens_grouped _)

end Optional

theorem isUnits_absorb (h : IsUnits t) (h' : IsUnits u) : IsUnits (absorbRegex t u) := by
  rw [absorbRegex]
  split
  · rename_i inner rest found found'
    have e : absorbBlanks inner rest =
        Regex.grouped (inner ++ Regex.blanks) ++ ['?'] ++ '(' :: rest := by
      simp [absorbBlanks, Regex.grouped, Regex.blanks]
    rw [e]
    exact (IsUnits.unit (isUnit_absorbed (h.isGroup_of_optionalBody? found))).append
      (h'.of_paddedRest? found')
  · exact h.append h'

/-- A pattern that may be merged with others: its text is a row of units. The piece of the expression
behind it has brackets that match, and is a single group only for an optional group or one that does not
count as optional. -/
structure IsJoinable (p : Pattern) : Prop where
  units : IsUnits p.regex
  balanced : Balanced p.literal
  ne : p.literal ≠ []
  several : ∀ u, u ≠ [] → isSingleGroup (p.literal ++ u) = false
  optional : p.isOptional = true → ∃ t, IsGroup t ∧ p.regex = t ++ ['?']

/-- However a seam is settled, the outcome is a row of units. -/
theorem IsJoinable.mergeRegex (h : p.IsJoinable) (h' : q.IsJoinable) : IsUnits (mergeRegex p q) := by
  rw [Pattern.mergeRegex]
  split
  · rename_i first found optional
    obtain ⟨t, own, e⟩ := h'.optional optional
    rw [e, List.dropLast_concat]
    exact .unit (isGroup_fold (h.units.isGroup_of_gap found) own)
  · split
    · rename_i closes
      obtain ⟨t, own, e⟩ := h'.optional (Bool.and_eq_true_iff.1 closes).2
      rw [e, List.dropLast_concat]
      exact h.units.relaxTail.append (.unit (isUnit_spaced own))
    · split
      · exact h.units.relaxTail.append h'.units
      · exact isUnits_absorb h.units h'.units

theorem IsJoinable.merge (h : p.IsJoinable) (h' : q.IsJoinable) : (p.merge q).IsJoinable where
  units := h.mergeRegex h'
  balanced := h.balanced.append h'.balanced
  ne := List.append_ne_nil_of_left_ne_nil h.ne _
  several u ne := by
    rw [Pattern.merge, List.append_assoc]
    exact h.several _ (List.append_ne_nil_of_right_ne_nil _ ne)
  optional single := by
    rw [isOptional, Pattern.merge, h.several _ h'.ne, Bool.and_false] at single
    cases single

theorem not_isSingleGroup_of_head (h : t.head? ≠ some '(') : isSingleGroup t = false := by
  obtain _ | ⟨c, t⟩ := t
  · rfl
  · rw [isSingleGroup.eq_def]
    split
    · rename_i e
      obtain ⟨rfl, -⟩ := List.cons.inj e
      exact absurd rfl h
    · rfl

/-- A pattern behind which no group opens the expression. -/
theorem isJoinable_of_head (units : IsUnits p.regex) (balanced : Balanced p.literal)
    (ne : p.literal ≠ []) (head : p.literal.head? ≠ some '(') : p.IsJoinable where
  units := units
  balanced := balanced
  ne := ne
  several u _ := not_isSingleGroup_of_head (by rwa [List.head?_append_of_ne_nil _ ne])
  optional single := by
    rw [isOptional, not_isSingleGroup_of_head head, Bool.and_false] at single
    cases single

theorem isJoinable_literal (ne : t ≠ []) :
    IsJoinable ⟨literalRegex t, escapeLiteral t⟩ := by
  refine isJoinable_of_head (.unit ?_) (balanced_escapeLiteral t)
    (Node.Formed.literal ne).toExpression_ne_nil (head?_escapeLiteral t)
  rw [literalRegex_eq]
  exact .literal (isLiteral_literalGroup ne)

theorem isJoinable_wildcard : IsJoinable ⟨['(', '.', '*', ')'], ['*']⟩ := by
  have star : Balanced ['*'] := .single (by decide) (by decide) (by decide)
  have dots : Balanced ['.', '*'] :=
    (Balanced.single (c := '.') (by decide) (by decide) (by decide)).append star
  have anyText := (IsAtom.chars (Regex.addsAtom_dot .extended)).quantified (Regex.step_star .extended)
  refine isJoinable_of_head (.unit (.group (isGroup_of_body dots anyText.body) (by decide) ?_)) star
    (by simp) (by simp)
  intro v
  rw [← List.reverse_prefix]
  simp [blankTail]

theorem isJoinable_optional (h : p.IsJoinable) :
    IsJoinable ⟨atom p.regex ++ ['?'], '(' :: p.literal ++ [')']⟩ where
  units := .unit h.units.optional.2
  balanced := h.balanced.group
  ne := by simp
  several u ne := by
    rw [List.append_assoc, List.singleton_append, h.balanced.isSingleGroup]
    simpa using ne
  optional _ := ⟨_, h.units.optional.1, rfl⟩

theorem isJoinable_negation (h : p.IsJoinable) (literal : p.literal = n.toExpression)
    (scope : NegationScope) :
    IsJoinable ⟨'(' :: '?' :: '!' :: p.regex ++ ')' :: negationTail scope,
      (Node.negation scope n).toExpression⟩ := by
  obtain ⟨_, source⟩ := h.units.source
  have caret : Balanced ['^'] := .single (by decide) (by decide) (by decide)
  have own := literal ▸ h.balanced
  refine isJoinable_of_head (.unit (.negation h.units.balanced source scope)) ?_ ?_ ?_ <;>
    rw [Node.toExpression] <;> split
  · exact caret.append own
  · exact caret.append ((Balanced.single (c := '[') (by decide) (by decide) (by decide)).append
      (own.append (.single (by decide) (by decide) (by decide))))
  all_goals simp

theorem head?_joinWith (h : IsUnits t) (ts : List Text) :
    (Text.joinWith ['|'] (t :: ts)).head? = some '(' := by
  rw [Text.joinWith_cons, List.head?_append, h.head?_eq]
  rfl

/-- Several rows with bars between them. -/
theorem isBody_joinWith {ts : List Text} (h : IsUnits t) (each : ∀ t ∈ ts, IsUnits t) :
    (∃ as items, IsBody (Text.joinWith ['|'] (t :: ts)) as items) ∧
      Balanced (Text.joinWith ['|'] (t :: ts)) ∧
      ∀ v, ¬ Regex.blanks <:+ v ++ Text.joinWith ['|'] (t :: ts) := by
  induction ts generalizing t with
  | nil =>
    obtain ⟨_, source⟩ := h.source
    rw [Text.joinWith_cons, List.flatMap_nil, List.append_nil]
    exact ⟨⟨_, _, source.body⟩, h.balanced, h.not_blanks_suffix⟩
  | cons u ts ih =>
    obtain ⟨own, each⟩ := List.forall_mem_cons.1 each
    obtain ⟨_, source⟩ := h.source
    obtain ⟨⟨_, _, body⟩, balanced, ends⟩ := ih own each
    have e : Text.joinWith ['|'] (t :: u :: ts) = t ++ '|' :: Text.joinWith ['|'] (u :: ts) := by
      simp [Text.joinWith_cons]
    rw [e]
    refine ⟨⟨_, _, source.body.bar body⟩, h.balanced.append
      ((Balanced.single (c := '|') (by decide) (by decide) (by decide)).append balanced), fun v => ?_⟩
    rw [List.append_cons, ← List.append_assoc]
    exact ends _

theorem isUnit_choice {ts : List Text} (h : IsUnits t) (each : ∀ t ∈ ts, IsUnits t) :
    IsUnit ('(' :: Text.joinWith ['|'] (t :: ts) ++ [')']) := by
  obtain ⟨⟨_, _, body⟩, balanced, ends⟩ := isBody_joinWith h each
  refine .group (isGroup_of_body balanced body) ?_ ?_
  · have head := head?_joinWith h ts
    cases e : Text.joinWith ['|'] (t :: ts) with
    | nil => simp
    | cons c u =>
      rw [e] at head
      simp only [List.head?_cons, Option.some.injEq] at head
      simp [head]
  · rintro v ⟨w, e⟩
    have e : w ++ Regex.blanks ++ [')'] =
        v ++ ['('] ++ Text.joinWith ['|'] (t :: ts) ++ [')'] := by
      simpa [blankTail, Regex.blanks] using e
    exact ends _ ⟨w, List.append_cancel_right e⟩

/-- A choice ends with a bracket, so it never counts as optional. -/
theorem isJoinable_choice {ts : List Text} (h : IsUnits t) (each : ∀ t ∈ ts, IsUnits t)
    (balanced : Balanced u) (ne : u ≠ [])
    (several : ∀ v, v ≠ [] → isSingleGroup (u ++ v) = false) :
    IsJoinable ⟨'(' :: Text.joinWith ['|'] (t :: ts) ++ [')'], u⟩ where
  units := .unit (isUnit_choice h each)
  balanced := balanced
  ne := ne
  several := several
  optional single := by
    rw [isOptional, List.getLast?_concat] at single
    cases single

/-- What the pattern of a tree is like, if it has one. -/
def HasJoinable (n : Node) : Prop :=
  ∀ p, ofNode n = .ok p → p.IsJoinable ∧ p.literal = n.toExpression

theorem isJoinable_concat (each : ∀ n ∈ ns, HasJoinable n) (h : p.IsJoinable)
    (e : concat (some p) ns = .ok q) :
    q.IsJoinable ∧ q.literal = p.literal ++ Node.concatExpression ns := by
  induction ns generalizing p with
  | nil =>
    cases e
    exact ⟨h, by simp [Node.concatExpression]⟩
  | cons n ns ih =>
    obtain ⟨own, each⟩ := List.forall_mem_cons.1 each
    rw [concat] at e
    obtain ⟨m, made, e⟩ := ok_of_bind e
    obtain ⟨joinable, literal⟩ := own m made
    obtain ⟨joinable, literal'⟩ := ih each (h.merge joinable) e
    refine ⟨joinable, ?_⟩
    rw [literal', Pattern.merge, literal, Node.concatExpression, List.append_assoc]

theorem isUnits_of_regexes {ts : List Text} (each : ∀ n ∈ ns, HasJoinable n)
    (e : regexes ns = .ok ts) : ts.length = ns.length ∧ (∀ t ∈ ts, IsUnits t) ∧
      ∀ n ∈ ns, ∃ p : Pattern, p.IsJoinable ∧ p.literal = n.toExpression := by
  induction ns generalizing ts with
  | nil =>
    cases e
    simp
  | cons n ns ih =>
    obtain ⟨own, each⟩ := List.forall_mem_cons.1 each
    rw [regexes] at e
    obtain ⟨p, made, e⟩ := ok_of_bind e
    obtain ⟨ts, later, rfl⟩ := ok_of_map e
    obtain ⟨joinable, literal⟩ := own p made
    obtain ⟨length, units, patterns⟩ := ih each later
    exact ⟨by simp [length], List.forall_mem_cons.2 ⟨joinable.units, units⟩,
      List.forall_mem_cons.2 ⟨⟨p, joinable, literal⟩, patterns⟩⟩

/-- The piece of the expression behind a choice. -/
theorem choice_literal (delimiter : Delimiter) (several : 2 ≤ ns.length)
    (each : ∀ n ∈ ns, ∃ p : Pattern, p.IsJoinable ∧ p.literal = n.toExpression) :
    Balanced (Node.choice delimiter ns).toExpression ∧
      (Node.choice delimiter ns).toExpression ≠ [] ∧
      ∀ v, v ≠ [] → isSingleGroup ((Node.choice delimiter ns).toExpression ++ v) = false := by
  have inner : Balanced (Node.choiceExpression ns) := balanced_choiceExpression fun n hn => by
    obtain ⟨p, joinable, literal⟩ := each n hn
    exact literal ▸ joinable.balanced
  rw [Node.toExpression]
  cases delimiter with
  | bare =>
    obtain _ | ⟨n, _ | ⟨m, ns⟩⟩ := ns
    · simp at several
    · simp at several
    · obtain ⟨p, joinable, literal⟩ := each n List.mem_cons_self
      have e : Delimiter.bare.opening ++ Node.choiceExpression (n :: m :: ns) ++
          Delimiter.bare.closing = p.literal ++ '|' :: Node.choiceExpression (m :: ns) := by
        simp [Delimiter.opening, Delimiter.closing, Node.choiceExpression, literal]
      refine ⟨by simpa [Delimiter.opening, Delimiter.closing] using inner, by simp [e], fun v _ => ?_⟩
      rw [e, List.append_assoc]
      exact joinable.several _ (by simp)
  | parenthesis =>
    refine ⟨inner.group, by simp [Delimiter.opening], fun v ne => ?_⟩
    rw [Delimiter.opening, Delimiter.closing, List.append_assoc, List.singleton_append,
      List.singleton_append, inner.isSingleGroup]
    simpa using ne
  | bracket =>
    refine ⟨((Balanced.single (c := '[') (by decide) (by decide) (by decide)).append inner).append
      (.single (by decide) (by decide) (by decide)), by simp [Delimiter.opening], fun v _ =>
      not_isSingleGroup_of_head (by simp [Delimiter.opening])⟩

/-- Every pattern of a tree may be merged with others. -/
theorem hasJoinable (h : n.Formed) : HasJoinable n := by
  induction h with
  | @sequence children two each ih =>
    intro p made
    obtain _ | ⟨n, ns⟩ := children
    · simp at two
    · obtain ⟨own, later⟩ := List.forall_mem_cons.1 ih
      rw [ofNode, concat] at made
      obtain ⟨q, first, made⟩ := ok_of_bind made
      obtain ⟨joinable, literal⟩ := own q first
      obtain ⟨joinable, literal'⟩ := isJoinable_concat later joinable made
      exact ⟨joinable, by rw [literal', literal, Node.toExpression, Node.concatExpression]⟩
  | literal ne =>
    rintro _ ⟨⟩
    exact ⟨isJoinable_literal ne, by rw [Node.toExpression]⟩
  | optional _ ih =>
    intro p made
    rw [ofNode] at made
    obtain ⟨q, inner, rfl⟩ := ok_of_map made
    obtain ⟨joinable, literal⟩ := ih q inner
    exact ⟨isJoinable_optional joinable, by rw [Node.toExpression, literal]⟩
  | @choice delimiter alternatives two each ih =>
    intro p made
    rw [ofNode] at made
    obtain ⟨ts, inner, rfl⟩ := ok_of_map made
    obtain ⟨length, units, patterns⟩ := isUnits_of_regexes ih inner
    obtain _ | ⟨t, ts⟩ := ts
    · simp only [List.length_nil] at length
      omega
    · obtain ⟨first, others⟩ := List.forall_mem_cons.1 units
      obtain ⟨balanced, ne, several⟩ := choice_literal delimiter two patterns
      exact ⟨isJoinable_choice first others balanced ne several, rfl⟩
  | @negation scope child _ ih =>
    intro p made
    rw [ofNode] at made
    obtain ⟨q, inner, rfl⟩ := ok_of_map made
    obtain ⟨joinable, literal⟩ := ih q inner
    exact ⟨isJoinable_negation joinable literal scope, rfl⟩
  | wildcard =>
    rintro _ ⟨⟩
    exact ⟨isJoinable_wildcard, by rw [Node.toExpression]⟩
  | argument | assertion =>
    rintro _ ⟨⟩

/-- The pattern of a tree, or what patterns of trees are merged into, in any order. -/
inductive IsMade : Pattern → Prop where
  | ofNode {n : Node} {p : Pattern} (formed : n.Formed) (made : ofNode n = .ok p) : IsMade p
  | merge {p q : Pattern} (left : IsMade p) (right : IsMade q) : IsMade (p.merge q)

theorem isJoinable_of_isMade (h : p.IsMade) : p.IsJoinable := by
  induction h with
  | ofNode formed made => exact (hasJoinable formed _ made).1
  | merge _ _ ih ih' => exact ih.merge ih'

end Pattern

namespace Fragment

/-- If the fragment is a pattern, then it comes of trees. -/
def IsMade : Fragment → Prop
  | .pattern p => p.IsMade
  | .argument _ | .assertion _ => True

variable {n : Node} {before after fragments : List Fragment}

theorem isMade_push (formed : n.Formed) (each : ∀ f ∈ before, f.IsMade)
    (h : push before n = .ok after) : ∀ f ∈ after, f.IsMade := by
  have patterned : ∀ {p : Pattern}, p.IsMade → ∀ f ∈ pushPattern p before, f.IsMade := by
    intro p made
    rw [pushPattern.eq_def]
    split
    · obtain ⟨first, each⟩ := List.forall_mem_cons.1 each
      exact List.forall_mem_cons.2 ⟨.merge first made, each⟩
    · exact List.forall_mem_cons.2 ⟨made, each⟩
  rw [push.eq_def] at h
  split at h
  · cases h
    exact List.forall_mem_cons.2 ⟨trivial, each⟩
  · cases h
    exact List.forall_mem_cons.2 ⟨trivial, each⟩
  · obtain ⟨p, made, rfl⟩ := ok_of_map h
    exact patterned (.ofNode formed made)

/-- The patterns among the fragments of a tree come of trees. -/
theorem isMade_of_ofNode (formed : n.Formed) (h : ofNode n = .ok fragments) :
    ∀ f ∈ fragments, f.IsMade :=
  forall_of_ofNode (fun _ hm _ _ each run => isMade_push (formed.of_mem_parts hm) each run) h

end Fragment

end StepMatch
