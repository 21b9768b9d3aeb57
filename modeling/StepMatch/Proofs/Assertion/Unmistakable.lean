import StepMatch.Proofs.Assertion.Phrases
import StepMatch.Proofs.Regex.Apart

/-!
# Phrases that cannot be mistaken

Many phrases open with the words of another one: `is not` and `is`, `is greater than or equal to` and
`is greater than`. The first phrase that fits decides. Still the order does not matter, as long as no
value opens with a word that a longer phrase goes on with. Then a text is written as one phrase at most,
and with one value.
-/

namespace StepMatch

open Regex (Apart)

/-- A text says what a template does, with a given text in the place of the value and other white space
for each space of the template. -/
inductive Says (v : Text) : Text → Text → Prop
  | nil : Says v [] []
  | value {template t : Text} (rest : Says v template t) : Says v (valuePlaceholder ++ template) (v ++ t)
  | space {blanks template t : Text} (ne : blanks ≠ []) (blank : ∀ c ∈ blanks, isBlank c)
      (rest : Says v template t) : Says v (' ' :: template) (blanks ++ t)
  | char {c : Char} {template t : Text} (other : c ≠ ' ') (text : ¬ valuePlaceholder <+: c :: template)
      (rest : Says v template t) : Says v (c :: template) (c :: t)

variable {v t u w template : Text} {L : TextLanguage} {v? v?' : Option Text} {e e' : PhraseEntry}
  {entries : List PhraseEntry}

/-- A character outside all placeholders belongs to the first part of the template. -/
theorem templateParts_cons {c : Char} (text : ¬ valuePlaceholder <+: c :: template) :
    ∃ part parts, templateParts template = part :: parts ∧
      templateParts (c :: template) = (c :: part) :: parts := by
  obtain ⟨part, parts, found⟩ := List.exists_cons_of_ne_nil (templateParts_ne_nil template)
  refine ⟨part, parts, found, ?_⟩
  rw [templateParts, found]
  rintro t rfl rfl
  exact text ⟨t, rfl⟩

/-- What is said are the parts of the template in other white space, with the value between them. -/
theorem Says.exists_parts (h : Says v template t) :
    ∃ ts, List.Forall₂ Text.Alike ts (templateParts template) ∧ t = Text.joinWith v ts := by
  have more {x : Text} {c : Char} {template t : Text} (same : Text.Alike x [c])
      (text : ¬ valuePlaceholder <+: c :: template)
      (ih : ∃ ts, List.Forall₂ Text.Alike ts (templateParts template) ∧ t = Text.joinWith v ts) :
      ∃ ts, List.Forall₂ Text.Alike ts (templateParts (c :: template)) ∧
        x ++ t = Text.joinWith v ts := by
    obtain ⟨part, parts, found, cons⟩ := templateParts_cons text
    obtain ⟨ts, alike, rfl⟩ := ih
    rw [found] at alike
    obtain ⟨first, ts, own, rest, rfl⟩ := List.forall₂_cons_right_iff.1 alike
    rw [cons]
    refine ⟨(x ++ first) :: ts, .cons (same.append own) rest, ?_⟩
    simp [Text.joinWith_cons]
  induction h with
  | nil => exact ⟨[[]], .cons (.refl []) .nil, rfl⟩
  | @value template t _ ih =>
    obtain ⟨ts, alike, rfl⟩ := ih
    refine ⟨[] :: ts, .cons (.refl []) alike, ?_⟩
    obtain ⟨first, ts, rfl⟩ : ∃ first more, ts = first :: more := by
      apply List.exists_cons_of_ne_nil
      rintro rfl
      exact templateParts_ne_nil template (List.forall₂_nil_left_iff.1 alike)
    simp [Text.joinWith_cons]
  | @space blanks template t ne blank _ ih =>
    have space : Text.Alike blanks [' '] :=
      .of_blanks blank (by simp [isBlank]) ne (List.cons_ne_nil _ _)
    have text : ¬ valuePlaceholder <+: ' ' :: template := by
      intro opens
      cases (List.cons_prefix_cons.1 opens).1
    exact more space text ih
  | char _ text _ ih => exact more (.refl _) text ih

/-- So it is written as the parts of the template. -/
theorem Says.phrased (h : Says v template t) (few : (templateParts template).length ≤ 2)
    (value : v ∈ L) : ∃ v?, Phrased L (templateParts template) t v? ∧
      v? = if (templateParts template).length == 2 then some v else none := by
  obtain ⟨ts, alike, rfl⟩ := h.exists_parts
  obtain ⟨part, found⟩ | ⟨before, after, found⟩ := templateParts_cases few
  · rw [found] at alike ⊢
    obtain ⟨x, _, own, rest, rfl⟩ := List.forall₂_cons_right_iff.1 alike
    obtain rfl := List.forall₂_nil_right_iff.1 rest
    refine ⟨none, ?_, rfl⟩
    simpa [Text.joinWith] using Phrased.bare own
  · rw [found] at alike ⊢
    obtain ⟨x, _, front, rest, rfl⟩ := List.forall₂_cons_right_iff.1 alike
    obtain ⟨y, _, back, none, rfl⟩ := List.forall₂_cons_right_iff.1 rest
    obtain rfl := List.forall₂_nil_right_iff.1 none
    refine ⟨some v, ?_, rfl⟩
    simpa [Text.joinWith] using Phrased.taking front value back

namespace PhraseEntry

/-- The words in front of the value. -/
def words (e : PhraseEntry) : List Text := ((templateParts e.template).headD []).words

/-- Whether a blank is between the phrase and its value. -/
def isSpaced (e : PhraseEntry) : Bool :=
  match templateParts e.template with
  | [_] => true
  | [before, after] => before.endsBlank && after.isEmpty
  | _ => false

/-- The words of the phrase come first, and those of the value behind them. -/
theorem words_of_phrased (spaced : e.isSpaced)
    (written : Phrased L (templateParts e.template) t v?) :
    t.words = e.words ++ (v?.getD []).words := by
  rw [isSpaced] at spaced
  rw [words]
  generalize templateParts e.template = parts at spaced written
  cases written with
  | bare same =>
    rw [same.words_eq]
    exact (List.append_nil _).symm
  | @taking before after t v u front value back =>
    simp only [Bool.and_eq_true, List.isEmpty_iff] at spaced
    obtain ⟨closes, rfl⟩ := spaced
    obtain rfl := back.eq_nil_iff.2 rfl
    rw [← front.endsBlank_eq] at closes
    rw [List.append_nil, Text.words_append_of_endsBlank closes, front.words_eq]
    rfl

end PhraseEntry

/-- Behind blanks that stand for the same, what opens with ink is the same. -/
theorem eq_of_append_eq_append {f g : Text} (same : f.words = g.words) (closes : f.endsBlank = true)
    (closes' : g.endsBlank = true) (opens : v.startsBlank = false) (opens' : w.startsBlank = false)
    (e : f ++ v = g ++ w) : v = w := by
  -- What is more in one of the two has no word, so it is blank, and opens the other value.
  have longer {f v w x : Text} (words : (f ++ x).words = f.words) (closes : f.endsBlank = true)
      (opens : v.startsBlank = false) (e : v = x ++ w) : x = [] := by
    rw [Text.words_append_of_endsBlank closes] at words
    have none : x.words = [] := by simpa using words
    have blank := Text.isBlank_of_words_eq_nil none
    obtain _ | ⟨c, x⟩ := x
    · rfl
    · rw [e] at opens
      simp [Text.startsBlank, blank c List.mem_cons_self] at opens
  obtain ⟨x, rfl, rest⟩ | ⟨x, rfl, rest⟩ := List.append_eq_append_iff.1 e
  · obtain rfl := longer same.symm closes opens rest
    exact rest
  · obtain rfl := longer same closes' opens' rest
    exact rest.symm

/-- Some phrases with values that none of their words opens. Where the words of one phrase open another
one, the word that follows is none that a value opens with. -/
structure Unmistakable (entries : List PhraseEntry) (L : TextLanguage) : Prop where
  isTrim : ∀ e ∈ entries, e.isTrim
  isSpaced : ∀ e ∈ entries, e.isSpaced
  values : ∀ v ∈ L, v ≠ [] ∧ Text.startsBlank v = false ∧ Text.endsBlank v = false
  continues : ∀ e ∈ entries, ∀ e' ∈ entries, e ≠ e' → e.words <+: e'.words →
    e.takesValue ∧ ∃ b, e.words ++ [b] <+: e'.words ∧ Apart b L

namespace Unmistakable

/-- A text that is written as one phrase does not have the words of a shorter one as well. -/
theorem not_prefix (h : Unmistakable entries L) (he : e ∈ entries) (he' : e' ∈ entries) (ne : e ≠ e')
    (written : Phrased L (templateParts e.template) t v?)
    (written' : Phrased L (templateParts e'.template) t v?') : ¬ e.words <+: e'.words := by
  intro opens
  obtain ⟨takes, b, longer, apart⟩ := h.continues e he e' he' ne opens
  obtain ⟨v, rfl⟩ := PhraseEntry.exists_value_of_phrased takes written
  have own := PhraseEntry.words_of_phrased (h.isSpaced e he) written
  have other := PhraseEntry.words_of_phrased (h.isSpaced e' he') written'
  have first : e.words ++ [b] <+: e.words ++ v.words := by
    have all := longer.trans (List.prefix_append e'.words (v?'.getD []).words)
    rwa [← other, own] at all
  obtain ⟨more, words⟩ := (List.prefix_append_right_inj e.words).1 first
  have value := written.value_mem
  exact (apart v value).1 (Text.prefix_of_words_eq (h.values v value).2.1 words.symm)

/-- A text is written as one phrase at most, and with one value. -/
theorem eq_of_phrased (h : Unmistakable entries L) (he : e ∈ entries) (he' : e' ∈ entries)
    (written : Phrased L (templateParts e.template) t v?)
    (written' : Phrased L (templateParts e'.template) t v?') : e = e' ∧ v? = v?' := by
  have own := PhraseEntry.words_of_phrased (h.isSpaced e he) written
  have other := PhraseEntry.words_of_phrased (h.isSpaced e' he') written'
  have same : e = e' := by
    by_contra ne
    have front : e.words <+: t.words := own ▸ List.prefix_append _ _
    have front' : e'.words <+: t.words := other ▸ List.prefix_append _ _
    obtain opens | opens := List.prefix_or_prefix_of_prefix front front'
    · exact h.not_prefix he he' ne written written' opens
    · exact h.not_prefix he' he (Ne.symm ne) written' written opens
  subst same
  refine ⟨rfl, ?_⟩
  have spaced := h.isSpaced e he
  rw [PhraseEntry.isSpaced] at spaced
  generalize templateParts e.template = parts at spaced written written'
  generalize whole : t = t' at written'
  cases written with
  | bare =>
    cases written'
    rfl
  | @taking before after x v y front value back =>
    cases written' with
    | @taking _ _ x' v' y' front' value' back' =>
      simp only [Bool.and_eq_true, List.isEmpty_iff] at spaced
      obtain ⟨closes, rfl⟩ := spaced
      obtain rfl := back.eq_nil_iff.2 rfl
      obtain rfl := back'.eq_nil_iff.2 rfl
      rw [List.append_nil, List.append_nil] at whole
      exact congrArg some (eq_of_append_eq_append (front.words_eq.trans front'.words_eq.symm)
        (front.endsBlank_eq.trans closes) (front'.endsBlank_eq.trans closes)
        (h.values v value).2.1 (h.values v' value').2.1 whole)

end Unmistakable

end StepMatch
