import StepMatch.Proofs.Expression.Spacing
import StepMatch.Proofs.Expression.Writing
import StepMatch.Proofs.Pattern.Spellings

/-!
# Rows of well-spaced parts

While the parts of a well-spaced expression are merged, what stands in front of the next part says
how the row so far takes the text that they stand for: with a space at its end or without it, or
only as it is. Each kind of part keeps this up, and so the row of a well-spaced tree takes every
text that the tree stands for, one space written for each run of blanks.
-/

namespace StepMatch.Pattern

open Regex (spaces)
open Text (squeeze blankAfter)

variable {ps qs : List Part} {g h : Group} {L M : TextLanguage} {t x y z : Text} {b c : Bool}

/-! ## Rows that are put together -/

/-- A row with the blanks at its end relaxed takes what it took before. -/
theorem mem_relax (e : relaxRow? ps = some qs) (hx : x ∈ rowLanguage ps) : x ∈ rowLanguage qs := by
  obtain ⟨row, g, g', relaxed, rfl, rfl⟩ := relaxRow?_eq_some_iff.1 e
  have groups : ∀ w ∈ g.language, w ∈ g'.language := by
    intro w hw
    obtain ⟨rfl, rfl⟩ | ⟨lead, first, more, rfl, rfl⟩ := Group.relax?_cases relaxed
    · exact hw.2
    · obtain ⟨u, hu, v, hv, rfl⟩ := Language.mem_mul.1 hw
      exact Language.append_mem_mul hu hv.2
  simp only [rowLanguage_append, rowLanguage, Part.language, mul_one] at hx ⊢
  obtain ⟨u, hu, v, hv, rfl⟩ := Language.mem_mul.1 hx
  exact Language.append_mem_mul hu (groups v hv)

theorem relaxRow?_append (ne : qs ≠ []) :
    relaxRow? (ps ++ qs) = (relaxRow? qs).map (ps ++ ·) := by
  obtain ⟨row, p, rfl⟩ := (List.eq_nil_or_concat qs).resolve_left ne
  rw [List.concat_eq_append, ← List.append_assoc]
  cases p with
  | group g =>
    simp only [relaxRow?, List.getLast?_concat, List.dropLast_concat]
    cases g.relax? <;> simp
  | optional | spaced | absorbed => simp [relaxRow?]

theorem loneOptional?_append (ne : ps ≠ []) (ne' : qs ≠ []) : loneOptional? (ps ++ qs) = none := by
  obtain ⟨p, ps, rfl⟩ := List.exists_cons_of_ne_nil ne
  obtain ⟨q, qs, rfl⟩ := List.exists_cons_of_ne_nil ne'
  rw [Option.eq_none_iff_forall_ne_some]
  intro g e
  have length := congrArg List.length (loneOptional?_eq_some_iff.1 e)
  simp only [List.cons_append, List.length_cons, List.length_append, List.length_nil] at length
  omega

theorem gapped?_of_relax (e : relaxRow? ps = none) : gapped? ps = none := by
  rw [Option.eq_none_iff_forall_ne_some]
  intro g gapped
  rw [gapped?_eq_some_iff.1 gapped] at e
  cases e

/-- Blanks are taken in where an optional group alone stands in front of words. -/
theorem absorbRow_eq_append (apart : loneOptional? ps = none ∨ padded? qs = none) :
    absorbRow ps qs = ps ++ qs := by
  rw [absorbRow]
  split
  · rename_i lone padded
    rw [lone, padded] at apart
    obtain apart | apart := apart <;> cases apart
  · rfl

theorem mergeNode_eq {n : Node} (needed : optionalOf? n qs = none) (tame : n.toExpression ≠ ['*']) :
    mergeNode (some ps) n qs = absorbRow ps qs := by
  have star : (n.toExpression == ['*']) = false := by simpa using tame
  rw [mergeNode, needed, star, mergeRow.eq_def]
  dsimp only
  cases relaxRow? ps <;> rfl

theorem mergeNode_literal (star : t ≠ ['*']) : mergeNode (some ps) (.literal t) qs = absorbRow ps qs := by
  refine mergeNode_eq rfl ?_
  rw [Node.toExpression]
  exact escapeLiteral_ne_star star

/-- Merging without folding and absorbing puts one row after the other; the blanks between them may
be relaxed. -/
theorem exists_mergeRow_eq_append (wildcard : Bool)
    (apart : loneOptional? ps = none ∨ padded? qs = none) :
    ∃ row, mergeRow ps qs none wildcard = row ++ qs ∧ (row = ps ∨ relaxRow? ps = some row) := by
  rw [mergeRow.eq_def]
  dsimp only
  split
  · rename_i row relaxed
    exact ⟨row, rfl, .inr relaxed⟩
  · exact ⟨ps, absorbRow_eq_append apart, .inl rfl⟩

/-- Whether a row opens with blanks is up to its first part. -/
theorem padded?_cons_eq_none {p : Part} : padded? (p :: ps) = none ↔ padded? [p] = none := by
  have some : ∀ ps : List Part, padded? (p :: ps) ≠ none ↔ ∃ first more tail,
      p = .group (.text true first more tail) ∨ p = .optional (.text true first more tail) := by
    intro ps
    rw [Option.ne_none_iff_exists']
    constructor
    · rintro ⟨row, padded⟩
      obtain ⟨first, more, tail, rest, ⟨e, -⟩ | ⟨e, -⟩⟩ := padded?_eq_some_iff.1 padded
      · exact ⟨first, more, tail, .inl (List.cons.inj e).1⟩
      · exact ⟨first, more, tail, .inr (List.cons.inj e).1⟩
    · rintro ⟨first, more, tail, rfl | rfl⟩ <;> exact ⟨_, rfl⟩
  exact not_iff_not.1 ((some ps).trans (some []).symm)

theorem padded?_append (ne : ps ≠ []) (e : padded? ps = none) (qs : List Part) :
    padded? (ps ++ qs) = none := by
  obtain ⟨p, ps, rfl⟩ := List.exists_cons_of_ne_nil ne
  exact padded?_cons_eq_none.2 (padded?_cons_eq_none.1 e)

theorem padded?_relax (relaxed : relaxRow? ps = some qs) (e : padded? ps = none) :
    padded? qs = none := by
  obtain ⟨row, g, g', relax, rfl, rfl⟩ := relaxRow?_eq_some_iff.1 relaxed
  obtain _ | ⟨p, row⟩ := row
  · obtain ⟨rfl, rfl⟩ | ⟨lead, first, more, rfl, rfl⟩ := Group.relax?_cases relax
    · rfl
    · cases lead
      · rfl
      · cases e
  · exact padded?_cons_eq_none.2 (padded?_cons_eq_none.1 e)

theorem relax_ne_nil (e : relaxRow? ps = some qs) : qs ≠ [] := by
  obtain ⟨row, g, g', -, -, rfl⟩ := relaxRow?_eq_some_iff.1 e
  simp

/-- A merge brings no blanks to the front of a row. -/
theorem padded?_mergeRow (ne : ps ≠ []) (e : padded? ps = none) (qs : List Part)
    (optional? : Option Group) (wildcard : Bool) :
    padded? (mergeRow ps qs optional? wildcard) = none := by
  have absorbed : padded? (absorbRow ps qs) = none := by
    rw [absorbRow]
    split
    · rfl
    · exact padded?_append ne e qs
  rw [mergeRow.eq_def]
  split
  · split
    · rfl
    · rename_i relaxed
      exact padded?_append (relax_ne_nil relaxed) (padded?_relax relaxed e) _
    · exact absorbed
  · split
    · rename_i relaxed
      exact padded?_append (relax_ne_nil relaxed) (padded?_relax relaxed e) _
    · exact absorbed

/-- The row is not a single optional part, and there are no blanks at its end to be relaxed. -/
structure IsFirm (ps : List Part) : Prop where
  ne : ps ≠ []
  several : loneOptional? ps = none
  solid : relaxRow? ps = none

theorem IsFirm.append (f : IsFirm qs) (ps : List Part) : IsFirm (ps ++ qs) := by
  refine ⟨by simp [f.ne], ?_, by rw [relaxRow?_append f.ne, f.solid]; rfl⟩
  by_cases ne : ps = []
  · rw [ne, List.nil_append]
    exact f.several
  · exact loneOptional?_append ne f.ne

theorem isFirm_group (solid : g.relax? = none) : IsFirm [.group g] :=
  ⟨by simp, rfl, by simp [relaxRow?, solid]⟩

theorem isFirm_optional (ne : ps ≠ []) (g : Group) : IsFirm (ps ++ [.optional g]) :=
  ⟨by simp, loneOptional?_append ne (by simp), by simp [relaxRow?]⟩

theorem isFirm_spaced (ps : List Part) (g : Group) : IsFirm (ps ++ [.spaced g]) :=
  IsFirm.append ⟨by simp, rfl, rfl⟩ ps

/-! ## What a row takes -/

/-- The text is in the language, and so is what stands in front of the space at its end; `blank` says
whether there is one. -/
structure Firmly (L : TextLanguage) (x : Text) (blank : Bool) : Prop where
  mem : x ∈ L
  front : blank = true → ∃ y ∈ L, x = y ++ [' ']

/-- The same, but there may be a blank in front that has been left out of an empty text. -/
structure Loosely (L : TextLanguage) (x : Text) (blank : Bool) : Prop where
  mem : x ∈ L
  front : blank = true → x = [] ∨ ∃ y ∈ L, x = y ++ [' ']

theorem Firmly.mono (le : ∀ w ∈ L, w ∈ M) (f : Firmly L x b) : Firmly M x b :=
  ⟨le x f.mem, fun blank => (f.front blank).imp fun y hy => ⟨le y hy.1, hy.2⟩⟩

theorem Firmly.loosely (f : Firmly L x b) : Loosely L x b :=
  ⟨f.mem, fun blank => .inr (f.front blank)⟩

theorem Loosely.mono (le : ∀ w ∈ L, w ∈ M) (l : Loosely L x b) : Loosely M x b :=
  ⟨le x l.mem, fun blank => (l.front blank).imp_right fun ⟨y, hy, e⟩ => ⟨y, le y hy, e⟩⟩

theorem Loosely.firmly (l : Loosely L x b) (ne : b = true → x ≠ []) : Firmly L x b :=
  ⟨l.mem, fun blank => (l.front blank).resolve_left (ne blank)⟩

theorem Loosely.append (l : Loosely L x b) (l' : Loosely M z c) (same : z = [] → c = b) :
    Loosely (L * M) (x ++ z) c := by
  refine ⟨Language.append_mem_mul l.mem l'.mem, fun blank => ?_⟩
  obtain rfl | ⟨y, hy, rfl⟩ := l'.front blank
  · rw [List.append_nil]
    refine (l.front (same rfl ▸ blank)).imp_right fun ⟨y, hy, e⟩ => ⟨y, ?_, e⟩
    simpa using Language.append_mem_mul hy l'.mem
  · exact .inr ⟨x ++ y, Language.append_mem_mul l.mem hy, (List.append_assoc ..).symm⟩

theorem Firmly.append_loosely (f : Firmly L x b) (l : Loosely M z c) (same : z = [] → c = b) :
    Firmly (L * M) (x ++ z) c := by
  refine ⟨Language.append_mem_mul f.mem l.mem, fun blank => ?_⟩
  obtain rfl | ⟨y, hy, rfl⟩ := l.front blank
  · rw [List.append_nil]
    refine (f.front (same rfl ▸ blank)).imp fun y ⟨hy, e⟩ => ⟨?_, e⟩
    simpa using Language.append_mem_mul hy l.mem
  · exact ⟨x ++ y, Language.append_mem_mul f.mem hy, (List.append_assoc ..).symm⟩

theorem append_firmly (hx : x ∈ L) (f : Firmly M z c) : Firmly (L * M) (x ++ z) c := by
  refine ⟨Language.append_mem_mul hx f.mem, fun blank => ?_⟩
  obtain ⟨y, hy, rfl⟩ := f.front blank
  exact ⟨x ++ y, Language.append_mem_mul hx hy, (List.append_assoc ..).symm⟩

/-- How the row of the parts so far takes what they stand for; `blank` says whether a blank stands at
the end of that. -/
inductive Stands : Edge → Option (List Part) → Text → Bool → Prop where
  | start : Stands .start none [] true
  | bracket {b : Bool} : Stands .bracket none [] b
  | slot : Stands .slot none [] false
  | leading {g : Group} {x : Text} {b : Bool}
    (takes : (x = [] ∧ b = true) ∨ Firmly g.language x b) :
    Stands .leading (some [.optional g]) x b
  | chain {g : Group} {x : Text} {b : Bool}
    (takes : (x = [] ∧ b = true) ∨ ∃ y ∈ g.language, x = y ++ if b then [' '] else []) :
    Stands .chain (some [.optional g]) x b
  | gap {g : Group} {x : Text} (takes : x = [] ∨ ∃ y ∈ g.language, x = y ++ [' ']) :
    Stands .gap (some [.optional g, .group (.gap .blanks)]) x true
  | attached {g : Group} {x : Text} {b : Bool} (takes : Firmly (1 + g.language) x b) :
    Stands .attached (some [.optional g]) x b
  | attachedGap {g : Group} {y : Text} (takes : y ∈ 1 + g.language) :
    Stands .attachedGap (some [.optional g, .group (.gap .blanks)]) (y ++ [' ']) true
  | loose {ps : List Part} {x : Text} {b : Bool} (firm : IsFirm ps)
    (takes : Loosely (rowLanguage ps) x b) : Stands .loose (some ps) x b
  | firm {ps : List Part} {x : Text} {b : Bool} (firm : IsFirm ps)
    (takes : Firmly (rowLanguage ps) x b) : Stands .firm (some ps) x b
  | blank {ps qs : List Part} {y : Text} (several : loneOptional? ps = none)
    (ungapped : gapped? ps = none) (relaxed : relaxRow? ps = some qs)
    (takes : y ++ [' '] ∈ rowLanguage ps) (front : y ∈ rowLanguage qs) :
    Stands .blank (some ps) (y ++ [' ']) true
  | strict {ps : List Part} {x : Text} {b : Bool} (ne : ps ≠ []) (solid : relaxRow? ps = none)
    (takes : x ∈ rowLanguage ps) : Stands .strict (some ps) x b

/-- Inside brackets there is nothing yet. -/
theorem Stands.inside {e : Edge} {row : Option (List Part)} (s : Stands e row x b) :
    Stands e.inside none [] b := by
  cases s <;> first | exact .start | exact .bracket

variable {e e' body : Edge} {row : Option (List Part)} {first : Word} {more : List Word}

/-! ## Literal text -/

theorem space_mem_ofLead (lead : Bool) :
    (if lead then [' '] else []) ∈ (Space.ofLead lead).language := by
  cases lead
  · exact rfl
  · exact ⟨by simp, by simp [isBlank]⟩

theorem spellWords_mem (first : Word) (more : List Word) :
    spellWords first more ∈ wordsLanguage first more :=
  (represents_words first more).sound _ (List.mem_singleton_self _)

theorem squeeze_of_wordsOf (e : wordsOf t = first :: more) :
    squeeze true t = spellWords first more ++ if t.endsBlank then [' '] else [] := by
  have words : t.words = first.text :: more.map Word.text := by rw [← map_wordsOf, e, List.map_cons]
  rw [Text.squeeze_true_eq words, Text.spaceAtEnd, spellWords, List.flatMap_map]

/-- Words after a row, with blanks around them or without. -/
theorem stands_words (hx : x ∈ rowLanguage ps) (lead closes : Bool) (first : Word)
    (more : List Word) : Stands (if closes then .blank else .firm)
      (some (ps ++ [.group (.text lead first more (.ofLead closes))]))
      (x ++ ((if lead then [' '] else []) ++ spellWords first more ++
        if closes then [' '] else [])) closes := by
  have start := Language.append_mem_mul (space_mem_ofLead lead) (spellWords_mem first more)
  have whole : ∀ (tail : Space) (z : Text), z ∈ tail.language →
      x ++ ((if lead then [' '] else []) ++ spellWords first more ++ z) ∈
        rowLanguage (ps ++ [.group (.text lead first more tail)]) := by
    intro tail z hz
    rw [rowLanguage_append, rowLanguage, rowLanguage, mul_one, Part.language, Group.language]
    exact Language.append_mem_mul hx (Language.append_mem_mul start hz)
  cases closes with
  | false => exact .firm ((isFirm_group rfl).append ps) ⟨whole .none [] rfl, by simp⟩
  | true =>
    have front := whole .slack [] fun _ h => by cases h
    have takes := whole .blanks [' '] ⟨by simp, by simp [isBlank]⟩
    simp only [if_true, List.append_nil] at front takes ⊢
    rw [← List.append_assoc x] at takes ⊢
    refine .blank ?_ ?_ ?_ takes front
    · rw [Option.eq_none_iff_forall_ne_some]
      intro g e
      simpa using congrArg List.getLast? (loneOptional?_eq_some_iff.1 e)
    · rw [Option.eq_none_iff_forall_ne_some]
      intro g e
      simpa using congrArg List.getLast? (gapped?_eq_some_iff.1 e)
    · rw [relaxRow?_append (by simp)]
      rfl

/-- Blanks after a row, and nothing else. -/
theorem stands_blanks (hx : x ∈ rowLanguage ps) (several : loneOptional? ps = none) :
    Stands .blank (some (ps ++ [.group (.gap .blanks)])) (x ++ [' ']) true := by
  have whole : ∀ (s : Space) (z : Text), z ∈ s.language →
      x ++ z ∈ rowLanguage (ps ++ [.group (.gap s)]) := by
    intro s z hz
    rw [rowLanguage_append, rowLanguage, rowLanguage, mul_one, Part.language, Group.language]
    exact Language.append_mem_mul hx hz
  have takes := whole .blanks [' '] ⟨by simp, by simp [isBlank]⟩
  have front := whole .slack [] fun _ h => by cases h
  rw [List.append_nil] at front
  refine .blank ?_ ?_ ?_ takes front
  · rw [Option.eq_none_iff_forall_ne_some]
    intro g e
    simpa using congrArg List.getLast? (loneOptional?_eq_some_iff.1 e)
  · rw [Option.eq_none_iff_forall_ne_some]
    intro g e
    have e' : ps ++ [Part.group (.gap .blanks)] = [.optional g] ++ [.group (.gap .blanks)] :=
      gapped?_eq_some_iff.1 e
    rw [List.append_inj_left' e' rfl] at several
    cases several
  · rw [relaxRow?_append (by simp)]
    rfl

theorem rowLanguage_optional (g : Group) : rowLanguage [.optional g] = 1 + g.language := by
  rw [rowLanguage, rowLanguage, mul_one, Part.language]

theorem Stands.mem (s : Stands e (some ps) x b) (ne : e ≠ .chain) (ne' : e ≠ .gap) :
    x ∈ rowLanguage ps := by
  cases s with
  | leading takes =>
    rw [rowLanguage_optional]
    exact takes.elim (fun h => .inl h.1) fun takes => .inr takes.mem
  | chain => exact absurd rfl ne
  | gap => exact absurd rfl ne'
  | attached takes =>
    rw [rowLanguage_optional]
    exact takes.mem
  | attachedGap takes =>
    simp only [rowLanguage, mul_one, Part.language, Group.language]
    exact Language.append_mem_mul takes ⟨by simp, by simp [isBlank]⟩
  | loose _ takes => exact takes.mem
  | firm _ takes => exact takes.mem
  | blank _ _ _ takes => exact takes
  | strict _ _ takes => exact takes

/-- Where nothing is folded or absorbed, the row is followed by the row of the next part. -/
theorem Stands.exists_mergeRow_eq (s : Stands e (some ps) x b) (ne : e ≠ .chain) (ne' : e ≠ .gap)
    (wildcard : Bool) (apart : padded? qs = none) :
    ∃ row, mergeRow ps qs none wildcard = row ++ qs ∧ x ∈ rowLanguage row := by
  obtain ⟨row, merged, rfl | relaxed⟩ := exists_mergeRow_eq_append wildcard (.inr apart)
  · exact ⟨_, merged, s.mem ne ne'⟩
  · exact ⟨row, merged, mem_relax relaxed (s.mem ne ne')⟩

theorem literalGroup_of_wordsOf (words : wordsOf t = first :: more) :
    literalGroup t = .text t.startsBlank first more (.ofLead t.endsBlank) := by
  rw [literalGroup, words]

/-- Text that opens with ink goes after a row, or is the first. -/
theorem Stands.afterText_ink (s : Stands e row x b) (ink : t.startsBlank = false)
    (words : wordsOf t = first :: more) (step : e.afterText t = some e') :
    Stands e' (some (mergeNode row (.literal t) [.group (literalGroup t)])) (x ++ squeeze b t)
      t.endsBlank := by
  have group := literalGroup_of_wordsOf words
  have text : squeeze b t = [] ++ spellWords first more ++ if t.endsBlank then [' '] else [] := by
    rw [Text.squeeze_of_startsInk ink, squeeze_of_wordsOf words, List.nil_append]
  have next : (if t.endsBlank then Edge.blank else .firm) = e' ∧ e ≠ .chain ∧ e ≠ .gap := by
    rw [Edge.afterText, ink] at step
    cases e <;> simp_all [Edge.afterInk]
  obtain ⟨rfl, ne, ne'⟩ := next
  rw [ink] at group
  rw [group, text]
  cases row with
  | none =>
    have nil : x ∈ rowLanguage [] := by cases s <;> rfl
    exact stands_words nil false t.endsBlank first more
  | some ps =>
    have apart : padded? [.group (.text false first more (.ofLead t.endsBlank))] = none := rfl
    obtain ⟨row, merged, mem⟩ :=
      s.exists_mergeRow_eq ne ne' ((Node.literal t).toExpression == ['*']) apart
    have stands := stands_words mem false t.endsBlank first more
    have unfolded : mergeNode (some ps) (.literal t) _ = _ := merged
    rw [unfolded]
    exact stands

/-- Blanks go after the text in front, whether or not that has a blank at its end. -/
theorem Firmly.exists_front (f : Firmly L x b) (opens : t.startsBlank = true) :
    ∃ y ∈ L, x ++ squeeze b t = y ++ ' ' :: squeeze true t := by
  cases b with
  | false => exact ⟨x, f.mem, by rw [Text.squeeze_of_startsBlank opens]⟩
  | true =>
    obtain ⟨y, hy, rfl⟩ := f.front rfl
    exact ⟨y, hy, by rw [List.append_assoc, List.singleton_append]⟩

theorem endsBlank_of_wordsOf_eq_nil (opens : t.startsBlank = true) (words : wordsOf t = []) :
    t.endsBlank = true ∧ squeeze true t = [] ∧ literalGroup t = .gap .blanks := by
  have none : t.words = [] := by rw [← map_wordsOf, words, List.map_nil]
  have ne : t ≠ [] := by
    rintro rfl
    cases opens
  exact ⟨Text.endsBlank_of_words_eq_nil ne none,
    Text.squeeze_of_blank (Text.isBlank_of_words_eq_nil none), by rw [literalGroup, words, opens]; rfl⟩

/-- Text that opens with blanks, after a row that takes what stands in front of them. -/
theorem stands_padded (hx : x ∈ rowLanguage ps) (several : loneOptional? ps = none)
    (opens : t.startsBlank = true) : Stands (if t.endsBlank then .blank else .firm)
      (some (ps ++ [.group (literalGroup t)])) (x ++ ' ' :: squeeze true t) t.endsBlank := by
  cases words : wordsOf t with
  | nil =>
    obtain ⟨closes, nothing, group⟩ := endsBlank_of_wordsOf_eq_nil opens words
    rw [closes, nothing, group]
    exact stands_blanks hx several
  | cons first more =>
    have stands := stands_words hx true t.endsBlank first more
    rw [literalGroup_of_wordsOf words, opens, squeeze_of_wordsOf words]
    exact stands

/-- After optional parts that open a sentence, blanks make a gap, or are absorbed with the text
after them. -/
theorem stands_absorbed (wildcard : Bool) (opens : t.startsBlank = true)
    (front : (x = [] ∧ b = true) ∨ ∃ y ∈ g.language, x ++ squeeze b t = y ++ ' ' :: squeeze true t) :
    Stands (if t.words.isEmpty then .gap else if t.endsBlank then .blank else .firm)
      (some (mergeRow [.optional g] [.group (literalGroup t)] none wildcard)) (x ++ squeeze b t)
      t.endsBlank := by
  rw [← map_wordsOf]
  cases words : wordsOf t with
  | nil =>
    obtain ⟨closes, nothing, group⟩ := endsBlank_of_wordsOf_eq_nil opens words
    rw [closes, group]
    refine .gap (front.imp (fun h => ?_) fun ⟨y, hy, e⟩ => ⟨y, hy, ?_⟩)
    · rw [h.1, h.2, nothing]
      rfl
    · rw [e, nothing]
  | cons first more =>
    have merged : mergeRow [.optional g] [.group (literalGroup t)] none wildcard =
        [.absorbed g] ++ [.group (.text false first more (.ofLead t.endsBlank))] := by
      rw [literalGroup_of_wordsOf words, opens]
      rfl
    have text := squeeze_of_wordsOf words
    have absorbed : rowLanguage [.absorbed g] = 1 + g.language * spaces := by
      rw [rowLanguage, rowLanguage, mul_one, Part.language]
    rw [merged]
    obtain ⟨rfl, rfl⟩ | ⟨y, hy, e⟩ := front
    · have absent : [] ∈ rowLanguage [.absorbed g] := absorbed ▸ .inl rfl
      rw [text, List.nil_append]
      exact stands_words absent false t.endsBlank first more
    · have spaced : y ++ [' '] ∈ rowLanguage [.absorbed g] := by
        rw [absorbed]
        exact .inr (Language.append_mem_mul hy ⟨by simp, by simp [isBlank]⟩)
      have stands := stands_words spaced false t.endsBlank first more
      rw [e, text]
      simpa using stands

theorem Stands.afterText_blanks (s : Stands e row x b) (opens : t.startsBlank = true)
    (step : e.afterText t = some e') :
    Stands e' (some (mergeNode row (.literal t) [.group (literalGroup t)])) (x ++ squeeze b t)
      t.endsBlank := by
  rw [Edge.afterText, opens, if_pos rfl] at step
  cases s with
  | slot =>
    obtain rfl := Option.some.inj step
    rw [Text.squeeze_of_startsBlank opens]
    have nothing : [] ∈ rowLanguage [] := rfl
    exact stands_padded nothing rfl opens
  | leading takes =>
    obtain rfl := Option.some.inj step
    exact stands_absorbed (escapeLiteral t == ['*']) opens (takes.imp_right fun takes => takes.exists_front opens)
  | @chain _ _ b takes =>
    obtain rfl := Option.some.inj step
    refine stands_absorbed (escapeLiteral t == ['*']) opens (takes.imp_right fun ⟨y, hy, e⟩ => ⟨y, hy, ?_⟩)
    rw [e, List.append_assoc]
    cases b with
    | false => rw [Text.squeeze_of_startsBlank opens]; rfl
    | true => rfl
  | attached takes =>
    rw [Edge.afterBlanks, ← map_wordsOf] at step
    cases words : wordsOf t with
    | nil =>
      rw [words] at step
      obtain rfl := Option.some.inj step
      obtain ⟨closes, nothing, group⟩ := endsBlank_of_wordsOf_eq_nil opens words
      obtain ⟨y, hy, e⟩ := takes.exists_front opens
      rw [closes, group, e, nothing]
      exact .attachedGap hy
    | cons =>
      rw [words] at step
      cases step
  | @firm ps _ _ firm takes =>
    obtain rfl := Option.some.inj step
    obtain ⟨y, hy, e⟩ := takes.exists_front opens
    have apart : loneOptional? ps = none ∨ padded? [.group (literalGroup t)] = none :=
      .inl firm.several
    obtain ⟨row, merged, rfl | relaxed⟩ :=
      exists_mergeRow_eq_append ((Node.literal t).toExpression == ['*']) apart
    · have unfolded : mergeNode (some row) (.literal t) _ = _ := merged
      rw [unfolded, e]
      exact stands_padded hy firm.several opens
    · rw [firm.solid] at relaxed
      cases relaxed
  | _ => cases step

/-- Literal text leads on. -/
theorem Stands.afterText (s : Stands e row x b) (ne : t ≠ []) (step : e.afterText t = some e') :
    Stands e' (some (mergeNode row (.literal t) (rowOf (.literal t)))) (x ++ squeeze b t)
      (blankAfter b t) := by
  rw [rowOf, Text.blankAfter_of_ne_nil ne]
  cases opens : t.startsBlank with
  | true => exact s.afterText_blanks opens step
  | false =>
    cases words : wordsOf t with
    | nil =>
      have none : t.words = [] := by rw [← map_wordsOf, words, List.map_nil]
      rw [Text.startsBlank_of_words_eq_nil ne none] at opens
      cases opens
    | cons first more => exact s.afterText_ink opens words step

/-! ## Parts that are always there, and wildcards -/

/-- What is always there leads on. -/
theorem Stands.afterSolid {n : Node} (s : Stands e row x b) (inner : Stands body (some qs) z c)
    (solid : optionalOf? n qs = none) (apart : padded? qs = none)
    (step : e.afterSolid body = some e') : Stands e' (some (mergeNode row n qs)) (x ++ z) c := by
  have edges : e ≠ .chain ∧ e ≠ .gap ∧ e' = body ∧ (body = .firm ∨ body = .strict) := by
    cases e <;> cases body <;> cases step <;> simp
  obtain ⟨ne, ne', rfl, closes⟩ := edges
  cases row with
  | none =>
    have nil : x = [] := by cases s <;> rfl
    rw [nil]
    exact inner
  | some ps =>
    obtain ⟨row, merged, mem⟩ := s.exists_mergeRow_eq ne ne' (n.toExpression == ['*']) apart
    rw [mergeNode, solid, merged]
    obtain rfl | rfl := closes
    · cases inner with
      | firm firm takes =>
        refine .firm (firm.append row) ?_
        rw [rowLanguage_append]
        exact append_firmly mem takes
    · cases inner with
      | strict ne solid takes =>
        refine .strict (List.append_ne_nil_of_right_ne_nil row ne) ?_ ?_
        · rw [relaxRow?_append ne, solid]
          rfl
        · rw [rowLanguage_append]
          exact Language.append_mem_mul mem takes

theorem mergeRow_relaxed (relaxed : relaxRow? ps = some qs) (next : List Part) :
    mergeRow ps next none true = qs ++ next := by
  rw [mergeRow.eq_def]
  dsimp only
  rw [relaxed]

theorem mergeRow_solid (solid : relaxRow? ps = none) (apart : padded? qs = none)
    (wildcard : Bool) : mergeRow ps qs none wildcard = ps ++ qs := by
  obtain ⟨row, merged, rfl | relaxed⟩ := exists_mergeRow_eq_append wildcard (.inr apart)
  · exact merged
  · rw [solid] at relaxed
    cases relaxed

/-- The row of a wildcard. -/
abbrev anyRow : List Part := [.group .anyText]

theorem rowLanguage_anyRow : rowLanguage anyRow = Regex.line := by
  rw [rowLanguage, rowLanguage, mul_one, Part.language, Group.language]

/-- A wildcard takes any text within a line, squeezed too. -/
theorem loosely_line {w : Text} (hw : w ∈ Regex.line) (b : Bool) :
    Loosely (rowLanguage anyRow) (squeeze b w) (blankAfter b w) := by
  rw [rowLanguage_anyRow]
  have mem : squeeze b w ∈ Regex.line := fun c hc => by
    obtain rfl | hc := Text.mem_squeeze hc
    · decide
    · exact hw c hc
  refine ⟨mem, fun blank => (Text.squeeze_eq_nil_or_concat blank).imp_right fun ⟨u, e⟩ => ⟨u, ?_, e⟩⟩
  intro c hc
  exact mem c (e ▸ List.mem_append_left _ hc)

theorem optional_slack_mem (hy : y ∈ 1 + g.language) (blank : ∀ c ∈ z, isBlank c) :
    y ++ z ∈ rowLanguage [.optional g, .group (.gap .slack)] := by
  simp only [rowLanguage, mul_one, Part.language, Group.language]
  exact Language.append_mem_mul hy blank

theorem firmly_optional_slack (hy : y ∈ 1 + g.language) :
    Firmly (rowLanguage [.optional g, .group (.gap .slack)]) (y ++ [' ']) true := by
  refine ⟨optional_slack_mem hy (by simp [isBlank]), fun _ => ⟨y, ?_, rfl⟩⟩
  simpa using optional_slack_mem hy (z := []) (by simp)

theorem loosely_optional (takes : (x = [] ∧ b = true) ∨ Firmly g.language x b) :
    Loosely (1 + g.language) x b := by
  obtain ⟨rfl, -⟩ | takes := takes
  · exact ⟨.inl rfl, fun _ => .inl rfl⟩
  · exact (takes.mono fun _ hw => .inr hw).loosely

/-- A wildcard leads on. -/
theorem Stands.afterWildcard {w : Text} (s : Stands e row x b) (hw : w ∈ Regex.line) :
    Stands e.afterWildcard (some (mergeNode row .wildcard (rowOf .wildcard)))
      (x ++ squeeze b w) (blankAfter b w) := by
  have any := loosely_line hw b
  have same : squeeze b w = [] → blankAfter b w = b := Text.blankAfter_of_squeeze_eq_nil
  have alone : IsFirm anyRow := isFirm_group rfl
  have unfolded : ∀ ps, mergeNode (some ps) .wildcard (rowOf .wildcard) = mergeRow ps anyRow none true :=
    fun _ => rfl
  have solid : ∀ {ps}, relaxRow? ps = none →
      mergeNode (some ps) .wildcard (rowOf .wildcard) = ps ++ anyRow := fun {ps} solid => by
    rw [unfolded, mergeRow_solid solid rfl]
  have relax : ∀ {ps qs}, relaxRow? ps = some qs →
      mergeNode (some ps) .wildcard (rowOf .wildcard) = qs ++ anyRow := fun {ps qs} relaxed => by
    rw [unfolded, mergeRow_relaxed relaxed]
  cases s with
  | start | bracket => exact .loose alone any
  | slot =>
    refine .firm alone (any.firmly fun blank nil => ?_)
    rw [same nil] at blank
    cases blank
  | @leading g _ _ takes =>
    rw [solid rfl]
    refine .loose (alone.append _) ?_
    rw [rowLanguage_append, rowLanguage_optional]
    exact (loosely_optional takes).append any same
  | @chain g _ _ takes =>
    rw [solid rfl]
    refine .loose (alone.append _) ?_
    rw [rowLanguage_append, rowLanguage_optional]
    obtain ⟨rfl, -⟩ | ⟨y, hy, rfl⟩ := takes
    · exact (Loosely.mk (.inl rfl) fun _ => .inl rfl).append any same
    · -- The wildcard takes the blank after the optional parts.
      let space : Text := if b then [' '] else []
      have text : y ++ space ++ squeeze b w = y ++ squeeze false (space ++ w) := by
        cases b <;> simp [space, squeeze, isBlank]
      have blank : blankAfter b w = blankAfter false (space ++ w) := by
        cases b <;> simp [space, blankAfter, isBlank]
      have within : space ++ w ∈ Regex.line := by
        cases b
        · exact hw
        · exact List.forall_mem_cons.2 ⟨by decide, hw⟩
      have before : Firmly (1 + g.language) y false := ⟨.inr hy, by simp⟩
      rw [text, blank]
      exact (before.append_loosely (loosely_line within false)
        Text.blankAfter_of_squeeze_eq_nil).loosely
  | @gap g _ takes =>
    have relaxed : relaxRow? [.optional g, .group (.gap .blanks)] =
        some [.optional g, .group (.gap .slack)] := rfl
    rw [relax relaxed]
    refine .loose (alone.append _) ?_
    rw [rowLanguage_append]
    refine Loosely.append ?_ any same
    obtain rfl | ⟨y, hy, rfl⟩ := takes
    · exact ⟨optional_slack_mem (.inl rfl) (z := []) (by simp), fun _ => .inl rfl⟩
    · exact (firmly_optional_slack (.inr hy)).loosely
  | attached takes =>
    rw [solid rfl]
    refine .firm (alone.append _) ?_
    rw [rowLanguage_append, rowLanguage_optional]
    exact takes.append_loosely any same
  | @attachedGap g y takes =>
    have relaxed : relaxRow? [.optional g, .group (.gap .blanks)] =
        some [.optional g, .group (.gap .slack)] := rfl
    rw [relax relaxed]
    refine .firm (alone.append _) ?_
    rw [rowLanguage_append]
    exact (firmly_optional_slack takes).append_loosely any same
  | loose firm takes =>
    rw [solid firm.solid]
    refine .loose (alone.append _) ?_
    rw [rowLanguage_append]
    exact takes.append any same
  | firm firm takes =>
    rw [solid firm.solid]
    refine .firm (alone.append _) ?_
    rw [rowLanguage_append]
    exact takes.append_loosely any same
  | blank several ungapped relaxed takes front =>
    rw [relax relaxed]
    refine .firm (alone.append _) ?_
    rw [rowLanguage_append]
    have both : Firmly _ _ true := ⟨mem_relax relaxed takes, fun _ => ⟨_, front, rfl⟩⟩
    exact both.append_loosely any same
  | strict ne closed takes =>
    rw [solid closed]
    refine .strict (by simp) (alone.append _).solid ?_
    rw [rowLanguage_append]
    exact Language.append_mem_mul takes any.mem

/-! ## Optional parts -/

theorem gapped_of_relax (ungapped : gapped? ps = none) (relaxed : relaxRow? ps = some qs)
    (wildcard : Bool) : mergeRow ps [.optional g] (some g) wildcard = qs ++ [.spaced g] := by
  rw [mergeRow.eq_def]
  dsimp only
  rw [ungapped, relaxed]

theorem mergeRow_optional (solid : relaxRow? ps = none) (apart : padded? [.optional g] = none)
    (wildcard : Bool) : mergeRow ps [.optional g] (some g) wildcard = ps ++ [.optional g] := by
  rw [mergeRow.eq_def]
  dsimp only
  rw [gapped?_of_relax solid, solid]
  exact absorbRow_eq_append (.inr apart)

theorem rowLanguage_spaced (g : Group) : rowLanguage [.spaced g] = 1 + spaces * g.language := by
  rw [rowLanguage, rowLanguage, mul_one, Part.language]

theorem space_mem_spaces : [' '] ∈ spaces := ⟨by simp, by simp [isBlank]⟩

theorem Loosely.exists_end (l : Loosely L z c) (ne : z ≠ []) :
    ∃ y ∈ L, z = y ++ if c then [' '] else [] := by
  cases c with
  | false => exact ⟨z, l.mem, by simp⟩
  | true => exact (l.front rfl).resolve_left ne

/-- A space in front of what an optional part takes. -/
theorem Loosely.spaced (l : Loosely g.language z c) :
    Firmly (rowLanguage [.spaced g]) (' ' :: z) c := by
  rw [rowLanguage_spaced]
  refine ⟨.inr (Language.append_mem_mul space_mem_spaces l.mem), fun blank => ?_⟩
  obtain rfl | ⟨y, hy, rfl⟩ := l.front blank
  · exact ⟨[], .inl rfl, rfl⟩
  · exact ⟨' ' :: y, .inr (Language.append_mem_mul space_mem_spaces hy), rfl⟩

/-- An optional part that is empty or does not close with blanks leads on, left out or not. -/
theorem Stands.afterOptional_loosely {child : Node} (s : Stands e row x b)
    (brings : z = [] ∨ Loosely g.language z c) (same : z = [] → c = b)
    (apart : padded? [.optional g] = none) (step : e.afterOptional .firm = some e') :
    Stands e' (some (mergeNode row (.optional child) [.optional g])) (x ++ z) c := by
  have loosely : Loosely (rowLanguage [.optional g]) z c := by
    rw [rowLanguage_optional]
    obtain rfl | takes := brings
    · exact ⟨.inl rfl, fun _ => .inl rfl⟩
    · exact takes.mono fun _ hw => .inr hw
  have solid : ∀ {ps}, relaxRow? ps = none →
      mergeNode (some ps) (.optional child) [.optional g] = ps ++ [.optional g] :=
    fun solid => mergeRow_optional solid apart ((Node.optional child).toExpression == ['*'])
  cases s with
  | start =>
    obtain rfl := Option.some.inj step
    refine .leading ?_
    by_cases nil : z = []
    · exact .inl ⟨nil, same nil⟩
    · exact .inr ((brings.resolve_left nil).firmly fun _ => nil)
  | slot =>
    obtain rfl := Option.some.inj step
    refine .attached ?_
    rw [← rowLanguage_optional]
    refine loosely.firmly fun blank nil => ?_
    rw [same nil] at blank
    cases blank
  | gap takes =>
    obtain rfl := Option.some.inj step
    refine .chain ?_
    obtain rfl | ⟨y, hy, rfl⟩ := takes
    · by_cases nil : z = []
      · exact .inl ⟨nil, same nil⟩
      · obtain ⟨y, hy, rfl⟩ := (brings.resolve_left nil).exists_end nil
        rw [Group.language]
        exact .inr ⟨y, .inr hy, rfl⟩
    · rw [Group.language]
      by_cases nil : z = []
      · have empty : [] ∈ 1 + spaces * g.language := .inl rfl
        refine .inr ⟨y, (Language.mem_add _ _ _).2 (.inl ?_), ?_⟩
        · simpa using Language.append_mem_mul hy empty
        · rw [nil, same nil]
          simp
      · obtain ⟨y', hy', rfl⟩ := (brings.resolve_left nil).exists_end nil
        refine .inr ⟨y ++ ([' '] ++ y'), .inl ?_, ?_⟩
        · exact Language.append_mem_mul hy (.inr (Language.append_mem_mul space_mem_spaces hy'))
        · simp
  | leading takes =>
    obtain rfl := Option.some.inj step
    rw [solid rfl]
    refine .loose (isFirm_optional (by simp) g) ?_
    rw [rowLanguage_append, rowLanguage_optional]
    exact (loosely_optional takes).append loosely same
  | loose firm takes =>
    obtain rfl := Option.some.inj step
    rw [solid firm.solid]
    refine .loose (isFirm_optional firm.ne g) ?_
    rw [rowLanguage_append]
    exact takes.append loosely same
  | attached takes =>
    obtain rfl := Option.some.inj step
    rw [solid rfl]
    refine .firm (isFirm_optional (by simp) g) ?_
    rw [rowLanguage_append, rowLanguage_optional]
    exact takes.append_loosely loosely same
  | firm firm takes =>
    obtain rfl := Option.some.inj step
    rw [solid firm.solid]
    refine .firm (isFirm_optional firm.ne g) ?_
    rw [rowLanguage_append]
    exact takes.append_loosely loosely same
  | @blank ps qs y several ungapped relaxed takes front =>
    obtain rfl := Option.some.inj step
    have merged : mergeNode (some ps) (.optional child) [.optional g] = qs ++ [.spaced g] :=
      gapped_of_relax ungapped relaxed ((Node.optional child).toExpression == ['*'])
    rw [merged]
    refine .firm (isFirm_spaced qs g) ?_
    rw [rowLanguage_append]
    by_cases nil : z = []
    · have both : Firmly (rowLanguage qs) (y ++ [' ']) true :=
        ⟨mem_relax relaxed takes, fun _ => ⟨y, front, rfl⟩⟩
      have none : Loosely (rowLanguage [.spaced g]) z c := by
        rw [rowLanguage_spaced, nil]
        exact ⟨.inl rfl, fun _ => .inl rfl⟩
      exact both.append_loosely none same
    · have spaced := append_firmly front (brings.resolve_left nil).spaced
      rwa [List.append_assoc]
  | strict ne closed takes =>
    obtain rfl := Option.some.inj step
    rw [solid closed]
    refine .strict (by simp) (isFirm_optional ne g).solid ?_
    rw [rowLanguage_append]
    exact Language.append_mem_mul takes loosely.mem
  | _ => cases step

/-- An optional part that may close with blanks leads on, left out or not. -/
theorem Stands.afterOptional_strict {child : Node} (s : Stands e row x b)
    (brings : (z = [] ∧ c = b) ∨ z ∈ g.language) (apart : padded? [.optional g] = none)
    (step : e.afterOptional .strict = some e') :
    Stands e' (some (mergeNode row (.optional child) [.optional g])) (x ++ z) c := by
  have mem : z ∈ rowLanguage [.optional g] := by
    rw [rowLanguage_optional]
    exact brings.imp_left And.left
  have after : ∀ ps, relaxRow? ps = none → x ∈ rowLanguage ps →
      Stands .strict (some (mergeNode (some ps) (.optional child) [.optional g])) (x ++ z) c := by
    intro ps solid takes
    have merged : mergeNode (some ps) (.optional child) [.optional g] = ps ++ [.optional g] :=
      mergeRow_optional solid apart ((Node.optional child).toExpression == ['*'])
    rw [merged]
    refine .strict (by simp) ?_ ?_
    · rw [relaxRow?_append (by simp)]
      rfl
    · rw [rowLanguage_append]
      exact Language.append_mem_mul takes mem
  cases s with
  | start | slot =>
    obtain rfl := Option.some.inj step
    exact .strict (List.cons_ne_nil _ _) rfl mem
  | leading takes =>
    obtain rfl := Option.some.inj step
    exact after _ rfl ((Stands.leading takes).mem (by decide) (by decide))
  | attached takes =>
    obtain rfl := Option.some.inj step
    exact after _ rfl ((Stands.attached takes).mem (by decide) (by decide))
  | loose firm takes =>
    obtain rfl := Option.some.inj step
    exact after _ firm.solid takes.mem
  | firm firm takes =>
    obtain rfl := Option.some.inj step
    exact after _ firm.solid takes.mem
  | @blank ps qs y several ungapped relaxed takes front =>
    obtain rfl := Option.some.inj step
    have merged : mergeNode (some ps) (.optional child) [.optional g] = qs ++ [.spaced g] :=
      gapped_of_relax ungapped relaxed ((Node.optional child).toExpression == ['*'])
    rw [merged]
    refine .strict (by simp) (isFirm_spaced qs g).solid ?_
    rw [rowLanguage_append, rowLanguage_spaced]
    obtain ⟨rfl, -⟩ | kept := brings
    · exact Language.append_mem_mul (mem_relax relaxed takes) (.inl rfl)
    · rw [List.append_assoc]
      exact Language.append_mem_mul front (.inr (Language.append_mem_mul space_mem_spaces kept))
  | strict ne closed takes =>
    obtain rfl := Option.some.inj step
    exact after _ closed takes
  | _ => cases step

/-! ## Trees -/

open Node (Plain)

variable {n : Node} {ns : List Node}

theorem rowOf_ne_nil (plain : n.Plain) : rowOf n ≠ [] := by
  obtain ⟨p, renders⟩ := exists_renders plain
  exact renders.proper.ne_nil

theorem inside_inside (e : Edge) : e.inside.inside = e.inside := by
  cases e <;> rfl

theorem padded?_atomGroup (apart : padded? ps = none) : padded? [.optional (atomGroup ps)] = none := by
  rw [atomGroup.eq_def]
  split
  · rfl
  · rename_i g
    rw [Option.eq_none_iff_forall_ne_some] at apart ⊢
    intro row padded
    obtain ⟨first, more, tail, rest, ⟨e, -⟩ | ⟨e, -⟩⟩ := padded?_eq_some_iff.1 padded
    · cases e
    · cases e
      exact apart _ rfl
  · rfl

theorem mergeRow_ne_nil (ne : ps ≠ []) (qs : List Part) (optional? : Option Group)
    (wildcard : Bool) : mergeRow ps qs optional? wildcard ≠ [] := by
  have absorbed : absorbRow ps qs ≠ [] := by
    rw [absorbRow]
    split
    · exact List.cons_ne_nil _ _
    · exact List.append_ne_nil_of_left_ne_nil ne qs
  rw [mergeRow.eq_def]
  split
  · split
    · exact List.cons_ne_nil _ _
    · simp
    · exact absorbed
  · split
    · rename_i relaxed
      exact List.append_ne_nil_of_left_ne_nil (relax_ne_nil relaxed) qs
    · exact absorbed

theorem padded?_rowOfAll (ne : ps ≠ []) (apart : padded? ps = none) (ns : List Node) :
    padded? (rowOfAll (some ps) ns) = none := by
  induction ns generalizing ps with
  | nil => exact apart
  | cons n ns ih => exact ih (mergeRow_ne_nil ne _ _ _) (padded?_mergeRow ne apart _ _ _)

/-- What is well spaced inside brackets does not open with blanks there. -/
theorem padded?_rowOf (plain : n.Plain) (step : n.after e.inside = some e') :
    padded? (rowOf n) = none := by
  induction plain generalizing e e' with
  | @sequence children two each ih =>
    obtain _ | ⟨n, ns⟩ := children
    · cases two
    · rw [Node.after, inside_inside, Node.afterAll] at step
      obtain ⟨last, all, -⟩ := Option.bind_eq_some_iff.1 step
      obtain ⟨next, first, -⟩ := Option.bind_eq_some_iff.1 all
      rw [rowOf, rowOfAll, mergeNode]
      exact padded?_rowOfAll (rowOf_ne_nil (each n List.mem_cons_self))
        (ih n List.mem_cons_self first) ns
  | @literal t ne =>
    have ink : t.startsBlank = false := by
      rw [Node.after, Edge.afterText] at step
      cases opens : t.startsBlank with
      | false => rfl
      | true =>
        rw [opens, if_pos rfl] at step
        cases e <;> cases step
    rw [rowOf, literalGroup, ink]
    cases wordsOf t <;> rfl
  | optional _ ih =>
    rw [Node.after] at step
    obtain ⟨last, inner, -⟩ := Option.bind_eq_some_iff.1 step
    rw [rowOf]
    exact padded?_atomGroup (ih inner)
  | @choice delimiter alternatives two each ih =>
    rw [rowOf]
    cases rowsOf alternatives <;> rfl
  | wildcard => rfl

/-- Where the tree is well spaced, its row goes on with everything that the tree stands for. -/
def LeadsOn (n : Node) : Prop := ∀ ⦃e e' row x b⦄, Stands e row x b → n.after e = some e' →
  ∀ t ∈ n.realisations,
    Stands e' (some (mergeNode row n (rowOf n))) (x ++ squeeze b t) (blankAfter b t)

theorem LeadsOn.all (each : ∀ n ∈ ns, LeadsOn n) (s : Stands e (some ps) x b)
    (step : Node.afterAll e ns = some e') (ht : t ∈ Node.concatRealisations ns) :
    Stands e' (some (rowOfAll (some ps) ns)) (x ++ squeeze b t) (blankAfter b t) := by
  induction ns generalizing e ps x b t with
  | nil =>
    obtain rfl := Option.some.inj step
    obtain rfl := (Language.mem_one t).1 ht
    simpa [squeeze, blankAfter, rowOfAll] using s
  | cons n ns ih =>
    obtain ⟨head, each⟩ := List.forall_mem_cons.1 each
    rw [Node.afterAll] at step
    obtain ⟨next, first, rest⟩ := Option.bind_eq_some_iff.1 step
    obtain ⟨t, own, u, later, rfl⟩ := Language.mem_mul.1 ht
    have stands := ih each (head s first t own) rest later
    rw [rowOfAll, Text.squeeze_append, Text.blankAfter_append, ← List.append_assoc]
    exact stands

theorem either_cases {first rest : Edge} (h : first.either rest = some body) :
    (first = .firm ∧ rest = .firm ∧ body = .firm) ∨
      (body = .strict ∧ (first = .firm ∨ first = .blank ∨ first = .strict)) := by
  cases first <;> cases rest <;> cases h <;> simp

/-- The alternatives of a choice together take what any one of them stands for. -/
theorem LeadsOn.each (each : ∀ n ∈ ns, LeadsOn n) (s : Stands e none [] b)
    (step : Node.afterEach e ns = some body) (ht : t ∈ Node.choiceRealisations ns) :
    (body = .firm ∧ Firmly (othersLanguage (rowsOf ns)) (squeeze b t) (blankAfter b t)) ∨
      (body = .strict ∧ squeeze b t ∈ othersLanguage (rowsOf ns)) := by
  induction ns generalizing body with
  | nil => exact ht.elim
  | cons n ns ih =>
    obtain ⟨head, each⟩ := List.forall_mem_cons.1 each
    rw [Node.afterEach] at step
    obtain ⟨first, own, step⟩ := Option.bind_eq_some_iff.1 step
    obtain ⟨rest, others, step⟩ := Option.bind_eq_some_iff.1 step
    have left : ∀ w ∈ rowLanguage (rowOf n), w ∈ othersLanguage (rowsOf (n :: ns)) :=
      fun _ hw => .inl hw
    have right : ∀ w ∈ othersLanguage (rowsOf ns), w ∈ othersLanguage (rowsOf (n :: ns)) :=
      fun _ hw => .inr hw
    obtain ht | ht := (Language.mem_add _ _ _).1 ht
    · have stands := head s own t ht
      obtain ⟨rfl, -, rfl⟩ | ⟨rfl, rfl | rfl | rfl⟩ := either_cases step
      · cases stands with
        | firm _ takes => exact .inl ⟨rfl, takes.mono left⟩
      · cases stands with
        | firm _ takes => exact .inr ⟨rfl, left _ takes.mem⟩
      · exact .inr ⟨rfl, left _ (stands.mem (by decide) (by decide))⟩
      · cases stands with
        | strict _ _ takes => exact .inr ⟨rfl, left _ takes⟩
    · have later := ih each others ht
      obtain ⟨-, rfl, rfl⟩ | ⟨rfl, -⟩ := either_cases step
      · obtain ⟨-, takes⟩ | ⟨h, -⟩ := later
        · exact .inl ⟨rfl, takes.mono right⟩
        · cases h
      · exact .inr ⟨rfl, right _ (later.elim (fun h => h.2.mem) And.right)⟩

theorem LeadsOn.sequence {children : List Node} (two : 2 ≤ children.length)
    (plain : ∀ n ∈ children, n.Plain) (each : ∀ n ∈ children, LeadsOn n) :
    LeadsOn (.sequence children) := by
  intro e e' row x b s step t ht
  obtain _ | ⟨n, ns⟩ := children
  · cases two
  obtain ⟨head, each⟩ := List.forall_mem_cons.1 each
  rw [Node.after] at step
  obtain ⟨body, inner, step⟩ := Option.bind_eq_some_iff.1 step
  rw [Node.afterAll] at inner
  obtain ⟨next, first, rest⟩ := Option.bind_eq_some_iff.1 inner
  obtain ⟨t, own, u, later, rfl⟩ := Language.mem_mul.1 ht
  have stands := LeadsOn.all each (head s.inside first t own) rest later
  rw [List.nil_append, ← Text.squeeze_append, ← Text.blankAfter_append] at stands
  have apart : padded? (rowOf (.sequence (n :: ns))) = none :=
    padded?_rowOfAll (rowOf_ne_nil (plain n List.mem_cons_self))
      (padded?_rowOf (plain n List.mem_cons_self) first) ns
  exact s.afterSolid (n := .sequence (n :: ns)) stands rfl apart step

theorem LeadsOn.choice {delimiter : Delimiter} {alternatives : List Node}
    (two : 2 ≤ alternatives.length) (each : ∀ n ∈ alternatives, LeadsOn n) :
    LeadsOn (.choice delimiter alternatives) := by
  intro e e' row x b s step t ht
  rw [Node.after] at step
  obtain ⟨body, inner, closes⟩ := Option.bind_eq_some_iff.1 step
  have takes := LeadsOn.each each s.inside inner ht
  obtain _ | ⟨n, ns⟩ := alternatives
  · cases two
  have own : rowOf (.choice delimiter (n :: ns)) = [.group (.choice (rowOf n) (rowsOf ns))] := by
    rw [rowOf, rowsOf]
  have language : rowLanguage [.group (.choice (rowOf n) (rowsOf ns))] =
      othersLanguage (rowsOf (n :: ns)) := by
    rw [rowLanguage, rowLanguage, mul_one, Part.language, Group.language, rowsOf, othersLanguage]
  rw [← language] at takes
  rw [own]
  have closed : IsFirm [.group (.choice (rowOf n) (rowsOf ns))] := isFirm_group rfl
  have stands : Stands body (some [.group (.choice (rowOf n) (rowsOf ns))]) (squeeze b t)
      (blankAfter b t) := by
    obtain ⟨rfl, takes⟩ | ⟨rfl, takes⟩ := takes
    · exact .firm closed takes
    · exact .strict closed.ne closed.solid takes
  exact s.afterSolid (n := .choice delimiter (n :: ns)) stands rfl rfl closes

theorem Stands.loosely (s : Stands e (some ps) x b) (closed : e = .firm ∨ e = .leading ∨ e = .loose) :
    Loosely (rowLanguage ps) x b := by
  cases s with
  | firm _ takes => exact takes.loosely
  | leading takes =>
    rw [rowLanguage_optional]
    exact loosely_optional takes
  | loose _ takes => exact takes
  | _ => simp at closed

theorem LeadsOn.optional {child : Node} (plain : child.Plain) (inner : LeadsOn child) :
    LeadsOn (.optional child) := by
  intro e e' row x b s step t ht
  rw [Node.after] at step
  obtain ⟨body, own, closes⟩ := Option.bind_eq_some_iff.1 step
  have apart := padded?_atomGroup (padded?_rowOf plain own)
  have same := Text.blankAfter_of_squeeze_eq_nil (b := b) (t := t)
  have kept : t = [] ∨ Stands body (some (rowOf child)) (squeeze b t) (blankAfter b t) :=
    ((Language.mem_add _ _ _).1 ht).imp id fun ht => inner s.inside own t ht
  have loosely (closed : body = .firm ∨ body = .leading ∨ body = .loose) : squeeze b t = [] ∨
      Loosely (atomGroup (rowOf child)).language (squeeze b t) (blankAfter b t) := by
    rw [language_atomGroup]
    obtain nil | stands := kept
    · exact .inl (by rw [nil]; rfl)
    · exact .inr (stands.loosely closed)
  have strict (ne : body ≠ .chain) (ne' : body ≠ .gap) :
      (squeeze b t = [] ∧ blankAfter b t = b) ∨
        squeeze b t ∈ (atomGroup (rowOf child)).language := by
    rw [language_atomGroup]
    obtain nil | stands := kept
    · exact .inl (by rw [nil]; exact ⟨rfl, rfl⟩)
    · exact .inr (stands.mem ne ne')
  rw [rowOf]
  cases body with
  | firm => exact s.afterOptional_loosely (loosely (by decide)) same apart closes
  | leading => exact s.afterOptional_loosely (loosely (by decide)) same apart closes
  | loose => exact s.afterOptional_loosely (loosely (by decide)) same apart closes
  | blank => exact s.afterOptional_strict (strict (by decide) (by decide)) apart closes
  | strict => exact s.afterOptional_strict (strict (by decide) (by decide)) apart closes
  | _ => cases closes

end StepMatch.Pattern
