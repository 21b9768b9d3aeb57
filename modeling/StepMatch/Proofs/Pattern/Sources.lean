import StepMatch.Proofs.Pattern.Rows
import StepMatch.Proofs.Text.Squeeze
import StepMatch.Proofs.Regex.Sources

/-!
# Patterns of any trees

The seams of patterns are settled on text that is never read. Shapes show what comes of that where no
negation occurs. In general less is known of the text, but enough to see that it stays a regex: it is a
row of units, each of them a group, an optional group or a negation (`IsUnit`), and every way to merge
two rows gives a row again. Only of literal text it matters what stands between the brackets, for the
blanks there are what a seam changes.
-/

namespace StepMatch

namespace Pattern

open Regex (IsSource IsAtom IsBody)

/-- Literal text that is not empty. -/
inductive Group.IsLiteral : Group → Prop where
  | gap {s : Space} (some : s ≠ .none) : IsLiteral (.gap s)
  | text (lead : Bool) (first : Word) (more : List Word) (tail : Space) :
    IsLiteral (.text lead first more tail)

/-- One pair of brackets that makes one piece. -/
structure IsGroup (t : Text) : Prop where
  brackets : ∃ inside, t = '(' :: inside ++ [')'] ∧ Balanced inside
  atom : ∃ r, IsAtom t r

/-- What the text of a pattern is made of. Of a group that is no literal text it is known that it does
not open with blanks, and of one that is needed that it does not close with blanks. -/
inductive IsUnit : Text → Prop where
  | literal {g : Group} (own : g.IsLiteral) : IsUnit g.write
  | optionalLiteral {g : Group} (own : g.IsLiteral) : IsUnit (g.write ++ ['?'])
  | group {t : Text} (own : IsGroup t) (opens : ¬ ['(', '\\'] <+: t)
    (closes : ∀ v, ¬ blankTail <:+ v ++ t) : IsUnit t
  | optional {t : Text} (own : IsGroup t) (opens : ¬ ['(', '\\'] <+: t) : IsUnit (t ++ ['?'])
  | negation {t : Text} {items : List Regex.Item} (balanced : Balanced t)
    (source : IsSource t items) (scope : NegationScope) :
    IsUnit ('(' :: '?' :: '!' :: t ++ ')' :: negationTail scope)

/-- A row of units that is not empty. -/
def IsUnits (t : Text) : Prop := ∃ us, us ≠ [] ∧ (∀ u ∈ us, IsUnit u) ∧ us.flatten = t

variable {t u v : Text} {g : Group} {us : List Text}

section Groups

variable {as : List Regex} {items : List Regex.Item}

theorem IsGroup.balanced (h : IsGroup t) : Balanced t := by
  obtain ⟨inside, rfl, balanced⟩ := h.brackets
  exact balanced.group

theorem IsGroup.isSingleGroup (h : IsGroup t) (u : Text) : isSingleGroup (t ++ u) = u.isEmpty := by
  obtain ⟨inside, rfl, balanced⟩ := h.brackets
  rw [List.append_assoc, List.singleton_append]
  exact balanced.isSingleGroup u

theorem isGroup_of_body (balanced : Balanced t) (body : IsBody t as items) :
    IsGroup ('(' :: t ++ [')']) := ⟨⟨t, rfl, balanced⟩, _, body.group⟩

theorem isGroup_grouped (balanced : Balanced t) (body : IsBody t as items) :
    IsGroup (Regex.grouped t) :=
  ⟨⟨'?' :: ':' :: t, rfl, balanced_question.append
    ((Balanced.single (c := ':') (by decide) (by decide) (by decide)).append balanced)⟩,
    _, body.grouped⟩

theorem not_opens_grouped (t : Text) : ¬ ['(', '\\'] <+: Regex.grouped t := by
  simp [Regex.grouped]

end Groups

section Literals

theorem source_blanks : ∃ items, IsSource Regex.blanks items :=
  ⟨_, (IsAtom.chars (Regex.addsAtom_blank .extended)).quantified (Regex.step_plus .extended)⟩

theorem source_slack : ∃ items, IsSource Space.slack.write items :=
  ⟨_, (IsAtom.chars (Regex.addsAtom_blank .extended)).quantified (Regex.step_star .extended)⟩

theorem source_escape : ∀ {w : Text}, w ≠ [] → ∃ items, IsSource (Regex.escape w) items
  | [c], _ => by
    rw [Regex.escape, List.flatMap_singleton]
    exact ⟨_, (IsAtom.chars (Regex.addsAtom_escapeChar .extended c)).source⟩
  | c :: d :: w, _ => by
    obtain ⟨items, later⟩ := source_escape (List.cons_ne_nil d w)
    exact ⟨_, (IsAtom.chars (Regex.addsAtom_escapeChar .extended c)).source.append later⟩

theorem source_words (first : Word) (more : List Word) :
    ∃ items, IsSource (writeWords first more) items := by
  rw [writeWords]
  obtain ⟨items, own⟩ := source_escape first.ne
  generalize Regex.escape first.text = t at own
  induction more generalizing t items with
  | nil => exact ⟨items, by rwa [List.flatMap_nil, List.append_nil]⟩
  | cons w more ih =>
    obtain ⟨_, blanks⟩ := source_blanks
    obtain ⟨_, word⟩ := source_escape w.ne
    rw [List.flatMap_cons, ← List.append_assoc]
    exact ih _ _ (own.append (blanks.append word))

/-- Blanks on either side, if any, leave a row a row. -/
theorem source_spaces (h : ∃ items, IsSource t items) (s s' : Space) :
    ∃ items, IsSource (s.write ++ t ++ s'.write) items := by
  have space : ∀ s : Space, s = .none ∨ ∃ items, IsSource s.write items := fun s => by
    cases s with
    | none => exact .inl rfl
    | slack => exact .inr source_slack
    | blanks => exact .inr source_blanks
  obtain ⟨items, own⟩ := h
  have front : ∃ items, IsSource (s.write ++ t) items := by
    obtain rfl | ⟨_, blanks⟩ := space s
    · exact ⟨items, own⟩
    · exact ⟨_, blanks.append own⟩
  obtain ⟨_, front⟩ := front
  obtain rfl | ⟨_, blanks⟩ := space s'
  · exact ⟨_, by rwa [Space.write, List.append_nil]⟩
  · exact ⟨_, front.append blanks⟩

theorem Group.IsLiteral.isGroup (h : g.IsLiteral) : IsGroup g.write := by
  have inner : ∃ items, IsSource g.inside items := by
    cases h with
    | @gap s some =>
      cases s with
      | none => exact absurd rfl some
      | slack => exact source_slack
      | blanks => exact source_blanks
    | text lead first more tail => exact source_spaces (source_words first more) _ _
  obtain ⟨items, source⟩ := inner
  rw [g.write_eq]
  exact isGroup_of_body (balanced_inside g) source.body

theorem Group.IsLiteral.relax {g' : Group} (h : g.relax? = some g') : g'.IsLiteral := by
  obtain ⟨-, rfl⟩ | ⟨lead, first, more, -, rfl⟩ := relax?_cases h
  · exact .gap (by decide)
  · exact .text lead first more .slack

theorem isLiteral_literalGroup (ne : t ≠ []) : (literalGroup t).IsLiteral := by
  rw [literalGroup]
  split
  · rename_i none
    have blank := Text.startsBlank_of_words_eq_nil ne (by rw [← map_wordsOf, none, List.map_nil])
    rw [blank]
    exact .gap (by decide)
  · exact .text _ _ _ _

end Literals

namespace IsUnit

/-- What a negation takes once it has looked ahead. -/
theorem source_negationTail (scope : NegationScope) :
    ∃ items, IsSource (negationTail scope) items := by
  cases scope with
  | word =>
    have ink : Regex.AddsAtom .extended ['\\', 'S'] (· = .chars false (.complement .blank)) := by
      refine .ofState fun s plain => ?_
      obtain ⟨mode, inner, outer, names⟩ := s
      cases plain
      rfl
    exact ⟨_, (IsAtom.chars ink).quantified (Regex.step_plus .extended)⟩
  | phrase =>
    exact ⟨_, (IsAtom.chars (Regex.addsAtom_dot .extended)).quantified (Regex.step_star .extended)⟩

theorem balanced_negationTail (scope : NegationScope) : Balanced (negationTail scope) := by
  cases scope with
  | word => exact (Balanced.escaped 'S').append (.single (by decide) (by decide) (by decide))
  | phrase =>
    exact (Balanced.single (c := '.') (by decide) (by decide) (by decide)).append
      (.single (by decide) (by decide) (by decide))

theorem source (h : IsUnit t) : ∃ items, IsSource t items := by
  cases h with
  | literal own =>
    obtain ⟨_, atom⟩ := own.isGroup.atom
    exact ⟨_, atom.source⟩
  | optionalLiteral own =>
    obtain ⟨_, atom⟩ := own.isGroup.atom
    exact ⟨_, atom.optional⟩
  | group own =>
    obtain ⟨_, atom⟩ := own.atom
    exact ⟨_, atom.source⟩
  | optional own =>
    obtain ⟨_, atom⟩ := own.atom
    exact ⟨_, atom.optional⟩
  | @negation t items balanced source scope =>
    obtain ⟨_, later⟩ := source_negationTail scope
    obtain ⟨row, h⟩ := source.refusal later
    exact ⟨row, by simpa using h⟩

theorem balanced (h : IsUnit t) : Balanced t := by
  cases h with
  | literal own => exact own.isGroup.balanced
  | optionalLiteral own => exact own.isGroup.balanced.append balanced_question
  | group own => exact own.balanced
  | optional own => exact own.balanced.append balanced_question
  | @negation t items balanced source scope =>
    have inside : Balanced ('?' :: '!' :: t) := balanced_question.append
      ((Balanced.single (c := '!') (by decide) (by decide) (by decide)).append balanced)
    have whole := inside.group.append (balanced_negationTail scope)
    simpa using whole

theorem head?_eq (h : IsUnit t) : t.head? = some '(' := by
  cases h with
  | literal own | optionalLiteral own =>
    rw [Group.write_eq]
    rfl
  | group own | optional own =>
    obtain ⟨inside, rfl, -⟩ := own.brackets
    rfl
  | negation => rfl

/-- No unit ends like blanks. -/
theorem not_blanks_suffix (h : IsUnit t) (v : Text) : ¬ Regex.blanks <:+ v ++ t := by
  have last : ∀ {w : Text} {c : Char}, c ≠ '+' → ¬ Regex.blanks <:+ v ++ (w ++ [c]) := by
    intro w c ne
    rw [← List.append_assoc]
    exact (NoPlus.close _ ne).not_blanks_suffix
  cases h with
  | literal own =>
    rw [Group.write_eq]
    exact last (by decide)
  | group own =>
    obtain ⟨inside, rfl, -⟩ := own.brackets
    exact last (by decide)
  | optionalLiteral | optional => exact last (by decide)
  | negation _ _ scope =>
    rw [← List.reverse_prefix]
    cases scope <;> simp [negationTail, Regex.blanks]

/-- A unit with something after it is no single group, and a unit that is one may be made optional. -/
theorem of_isSingleGroup (h : IsUnit t) (single : isSingleGroup (t ++ u)) :
    u = [] ∧ IsGroup t ∧ IsUnit (t ++ ['?']) := by
  have nothing : ∀ {t u : Text}, IsGroup t → isSingleGroup (t ++ u) → u = [] := fun own single => by
    rw [own.isSingleGroup] at single
    simpa using single
  cases h with
  | literal own => exact ⟨nothing own.isGroup single, own.isGroup, .optionalLiteral own⟩
  | group own opens => exact ⟨nothing own single, own, .optional own opens⟩
  | optionalLiteral own =>
    rw [List.append_assoc] at single
    exact absurd (nothing own.isGroup single) (by simp)
  | optional own =>
    rw [List.append_assoc] at single
    exact absurd (nothing own single) (by simp)
  | @negation t items balanced source scope =>
    have inside : Balanced ('?' :: '!' :: t) := balanced_question.append
      ((Balanced.single (c := '!') (by decide) (by decide) (by decide)).append balanced)
    have none := inside.isSingleGroup (negationTail scope ++ u)
    rw [show ('(' :: '?' :: '!' :: t ++ ')' :: negationTail scope) ++ u =
      '(' :: ('?' :: '!' :: t) ++ ')' :: (negationTail scope ++ u) by simp] at single
    rw [none] at single
    cases scope <;> simp [negationTail] at single

end IsUnit

namespace IsUnits

theorem unit (h : IsUnit t) : IsUnits t := ⟨[t], by simp, by simpa using h, by simp⟩

theorem append (h : IsUnits t) (h' : IsUnits u) : IsUnits (t ++ u) := by
  obtain ⟨us, ne, each, rfl⟩ := h
  obtain ⟨vs, _, each', rfl⟩ := h'
  exact ⟨us ++ vs, by simp [ne], fun w hw => (List.mem_append.1 hw).elim (each w) (each' w), by simp⟩

theorem cons_cases (h : IsUnits t) : ∃ u v, IsUnit u ∧ (v = [] ∨ IsUnits v) ∧ t = u ++ v := by
  obtain ⟨us, ne, each, rfl⟩ := h
  obtain _ | ⟨u, us⟩ := us
  · exact absurd rfl ne
  · obtain ⟨own, each⟩ := List.forall_mem_cons.1 each
    refine ⟨u, us.flatten, own, ?_, rfl⟩
    by_cases none : us = []
    · exact .inl (by rw [none]; rfl)
    · exact .inr ⟨us, none, each, rfl⟩

theorem concat_cases (h : IsUnits t) : ∃ u v, (u = [] ∨ IsUnits u) ∧ IsUnit v ∧ t = u ++ v := by
  obtain ⟨us, ne, each, rfl⟩ := h
  obtain ⟨us, u, rfl⟩ := (List.eq_nil_or_concat us).resolve_left ne
  rw [List.concat_eq_append] at each ⊢
  refine ⟨us.flatten, u, ?_, each u (by simp), by simp⟩
  by_cases none : us = []
  · exact .inl (by rw [none]; rfl)
  · exact .inr ⟨us, none, fun w hw => each w (List.mem_append_left _ hw), rfl⟩

theorem of_front (h : u = [] ∨ IsUnits u) (h' : IsUnits v) : IsUnits (u ++ v) := by
  obtain rfl | h := h
  · exact h'
  · exact h.append h'

theorem of_behind (h : IsUnits u) (h' : v = [] ∨ IsUnits v) : IsUnits (u ++ v) := by
  obtain rfl | h' := h'
  · rwa [List.append_nil]
  · exact h.append h'

theorem source (h : IsUnits t) : ∃ items, IsSource t items := by
  obtain ⟨us, ne, each, rfl⟩ := h
  induction us with
  | nil => exact absurd rfl ne
  | cons u us ih =>
    obtain ⟨own, each⟩ := List.forall_mem_cons.1 each
    obtain ⟨_, first⟩ := own.source
    by_cases none : us = []
    · subst none
      exact ⟨_, by simpa using first⟩
    · obtain ⟨_, later⟩ := ih none each
      exact ⟨_, first.append later⟩

theorem balanced (h : IsUnits t) : Balanced t := by
  obtain ⟨us, -, each, rfl⟩ := h
  have whole : Balanced (us.flatMap id) := .flatMap fun u hu => (each u hu).balanced
  simpa using whole

theorem head?_eq (h : IsUnits t) : t.head? = some '(' := by
  obtain ⟨u, v, unit, -, rfl⟩ := h.cons_cases
  rw [List.head?_append, unit.head?_eq]
  rfl

theorem not_blanks_suffix (h : IsUnits t) (v : Text) : ¬ Regex.blanks <:+ v ++ t := by
  obtain ⟨u, w, -, unit, rfl⟩ := h.concat_cases
  rw [← List.append_assoc]
  exact unit.not_blanks_suffix _

/-- What a quantifier follows when a pattern is made optional is a group, and with the quantifier a
unit. -/
theorem optional (h : IsUnits t) : IsGroup (atom t) ∧ IsUnit (atom t ++ ['?']) := by
  rw [atom]
  split
  · rename_i single
    obtain ⟨u, v, unit, -, rfl⟩ := h.cons_cases
    obtain ⟨rfl, own, optional⟩ := unit.of_isSingleGroup single
    rw [List.append_nil]
    exact ⟨own, optional⟩
  · obtain ⟨items, source⟩ := h.source
    have own := isGroup_grouped h.balanced source.body
    exact ⟨own, .optional own (not_opens_grouped t)⟩

/-- A row that closes with blanks closes with a group of literal text that does. -/
theorem blankTail_cases (h : IsUnits (u ++ blankTail)) : ∃ (front : Text) (g g' : Group) (x : Text),
    (front = [] ∨ IsUnits front) ∧ g.relax? = some g' ∧ g.write = x ++ blankTail ∧
      g'.write = x ++ slackTail ∧ u = front ++ x := by
  obtain ⟨front, unit, others, own, e⟩ := h.concat_cases
  have inside : ∀ {t w : Text}, u ++ blankTail = w ++ (t ++ [')']) → Regex.blanks <:+ w ++ t :=
    fun {t w} e => by
      have e' : u ++ Regex.blanks ++ [')'] = w ++ t ++ [')'] := by simpa [blankTail, Regex.blanks] using e
      exact ⟨u, List.append_inj_left' e' rfl⟩
  have question : ∀ {w : Text}, u ++ blankTail ≠ w ++ ['?'] := fun {w} e => by
    have := congrArg List.getLast? e
    simp [blankTail] at this
  cases own with
  | @literal g own =>
    cases relaxed : g.relax? with
    | none =>
      rw [g.write_eq] at e
      have suffix := inside (w := front) (t := '(' :: g.inside) (by simpa using e)
      rw [List.append_cons] at suffix
      exact absurd suffix (not_blanks_suffix_inside (.close _ (by decide)) relaxed)
    | some g' =>
      obtain ⟨x, text, text'⟩ := Group.write_relax? relaxed
      refine ⟨front, g, g', x, others, relaxed, text, text', ?_⟩
      rw [text, ← List.append_assoc] at e
      exact List.append_cancel_right e
  | group own opens closes => exact absurd ⟨u, e⟩ (closes front)
  | optionalLiteral | optional =>
    rw [← List.append_assoc] at e
    exact absurd e question
  | negation balanced source scope =>
    have := congrArg List.getLast? e
    cases scope <;> simp [blankTail, negationTail, List.getLast?_cons] at this

theorem relaxTail (h : IsUnits t) : IsUnits (relaxTail t) := by
  rw [Pattern.relaxTail]
  split
  · rename_i stem e
    obtain rfl := withoutEnding?_eq_some_iff.1 e
    obtain ⟨front, g, g', x, others, relaxed, -, text, rfl⟩ := h.blankTail_cases
    rw [List.append_assoc, ← text]
    exact of_front others (.unit (.literal (.relax relaxed)))
  · exact h

/-- A row that is an optional group. -/
theorem isGroup_of_optionalBody? (h : IsUnits t) (found : optionalBody? t = some u) : IsGroup u := by
  rw [optionalBody?, Option.filter_eq_some_iff, withoutEnding?_eq_some_iff] at found
  obtain ⟨rfl, single⟩ := found
  obtain ⟨front, unit, others, own, e⟩ := h.concat_cases
  have lone : ∀ {w : Text}, w ≠ [] → IsGroup w → u ++ ['?'] = front ++ (w ++ ['?']) → IsGroup u := by
    intro w ne own e
    rw [← List.append_assoc] at e
    have e := List.append_cancel_right e
    obtain rfl | others := others
    · rw [List.nil_append] at e
      exact e ▸ own
    · obtain ⟨a, b, unit, -, rfl⟩ := others.cons_cases
      rw [e, List.append_assoc] at single
      have none := (unit.of_isSingleGroup single).1
      exact absurd (List.append_eq_nil_iff.1 none).2 ne
  have last : ∀ {w : Text} {c : Char}, c ≠ '?' → u ++ ['?'] ≠ w ++ [c] := fun ne e =>
    ne (List.cons.inj (List.append_inj_right' e rfl)).1.symm
  cases own with
  | optionalLiteral own => exact lone (by rw [Group.write_eq]; simp) own.isGroup e
  | optional own =>
    refine lone ?_ own e
    obtain ⟨inside, rfl, -⟩ := own.brackets
    simp
  | literal own =>
    rw [Group.write_eq, ← List.append_assoc] at e
    exact absurd e (last (by decide))
  | group own =>
    obtain ⟨inside, rfl, -⟩ := own.brackets
    rw [← List.append_assoc] at e
    exact absurd e (last (by decide))
  | negation balanced source scope =>
    have := congrArg List.getLast? e
    cases scope <;> simp [negationTail, List.getLast?_cons] at this

/-- A row that is an optional group with blanks after it. -/
theorem isGroup_of_gap (h : IsUnits t)
    (found : (t.withoutEnding? blankGroup).bind optionalBody? = some u) : IsGroup u := by
  obtain ⟨stem, ending, body⟩ := Option.bind_eq_some_iff.1 found
  obtain rfl := withoutEnding?_eq_some_iff.1 ending
  have split : stem ++ blankGroup = stem ++ ['('] ++ blankTail := by simp [blankGroup, blankTail]
  rw [split] at h
  obtain ⟨front, g, g', x, others, relaxed, text, -, e⟩ := h.blankTail_cases
  obtain ⟨rfl, -⟩ | ⟨lead, first, more, rfl, -⟩ := Group.relax?_cases relaxed
  · obtain rfl : x = ['('] := List.append_cancel_right (text.symm.trans (by rfl))
    obtain rfl := List.append_cancel_right e
    obtain rfl | others := others
    · simp [optionalBody?, Text.withoutEnding?] at body
    · exact others.isGroup_of_optionalBody? body
  · exfalso
    have own : x = '(' :: ((Space.ofLead lead).write ++ writeWords first more) := by
      refine List.append_cancel_right (text.symm.trans ?_)
      simp [Group.write, Space.write, Regex.blanks, blankTail]
    rw [own, List.append_cons front, ← List.append_assoc] at e
    obtain ⟨v, rfl⟩ := slash_of_words e
    rw [optionalBody?, withoutEnding?_eq_none (by rw [← List.reverse_prefix]; simp)] at body
    cases body

/-- A row that opens with blanks in front of more, without these. -/
theorem of_paddedRest? (h : IsUnits t) (found : paddedRest? t = some u) : IsUnits ('(' :: u) := by
  rw [paddedRest?, Option.filter_eq_some_iff, withoutOpening?_eq_some_iff] at found
  obtain ⟨e, more⟩ := found
  obtain ⟨unit, behind, own, others, rfl⟩ := h.cons_cases
  have more : u.head? ≠ some ')' := by simpa using more
  have opens : ['(', '\\'] <+: unit ++ behind := ⟨'s' :: '+' :: u, by rw [e]; rfl⟩
  have closed : ∀ {w : Text}, IsGroup w → ¬ ['(', '\\'] <+: w → ∀ v, ¬ ['(', '\\'] <+: w ++ v := by
    rintro w own opens v opens'
    obtain ⟨inside, rfl, -⟩ := own.brackets
    obtain _ | ⟨c, inside⟩ := inside
    · simp at opens'
    · exact opens (by simpa using opens')
  -- Words with blanks in front, in a unit with something behind the bracket that closes the group.
  have strip : ∀ {g : Group} (q : Text), g.IsLiteral → g.write ++ q ++ behind = blankHead ++ u →
      (∀ {g : Group}, g.IsLiteral → IsUnit (g.write ++ q)) → IsUnits ('(' :: u) := by
    intro g q own e unit
    have e : g.inside ++ ')' :: (q ++ behind) = Regex.blanks ++ u := by
      rw [g.write_eq] at e
      simpa [blankHead, Regex.blanks] using e
    obtain ⟨first, words, tail, rfl⟩ := blanks_of_inside e more
    have e : u = writeWords first words ++ tail.write ++ ')' :: (q ++ behind) := by
      have same : Regex.blanks ++ u =
          Regex.blanks ++ (writeWords first words ++ tail.write ++ ')' :: (q ++ behind)) := by
        rw [← e]
        simp [Group.inside, Space.ofLead, Space.write]
      exact List.append_cancel_left same
    have text : '(' :: u = (Group.text false first words tail).write ++ q ++ behind := by
      rw [e]
      simp [Group.write, Space.ofLead, Space.write]
    rw [text]
    exact of_behind (.unit (unit (.text _ _ _ _))) others
  cases own with
  | literal own =>
    refine strip [] own (by rwa [List.append_nil]) fun own => ?_
    rw [List.append_nil]
    exact .literal own
  | optionalLiteral own => exact strip ['?'] own e .optionalLiteral
  | group own opens' => exact absurd opens (closed own opens' _)
  | optional own opens' =>
    rw [List.append_assoc] at opens
    exact absurd opens (closed own opens' _)
  | negation => simp at opens

end IsUnits

end Pattern

end StepMatch
