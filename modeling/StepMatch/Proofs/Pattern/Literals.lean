import StepMatch.Proofs.Pattern.Spellings

/-!
# The texts of literal text

The group of a literal text takes exactly the texts that differ from it in the amount of white space
alone. Such texts have the same words and the same kind of ends, and so the same group; and each text
is taken by its own group.
-/

namespace StepMatch

namespace Pattern

open Regex (spaces)

variable {t u : Text}

/-- The texts of words with blanks in front of each, and blanks at the end if a blank is there. -/
def laterLanguage (words : List Text) (closes : Bool) : TextLanguage :=
  (words.map fun w => spaces * {w}).prod * (Space.ofLead closes).language

/-- A blank in front of such a text makes no difference, if there is something to precede. -/
theorem cons_mem_laterLanguage {words : List Text} {closes : Bool} {c : Char}
    (blank : isBlank c = true) (ne : t ≠ []) (h : t ∈ laterLanguage words closes) :
    c :: t ∈ laterLanguage words closes := by
  have longer : ∀ {g : Text}, g ∈ spaces → c :: g ∈ spaces := fun hg =>
    ⟨List.cons_ne_nil _ _, List.forall_mem_cons.2 ⟨blank, hg.2⟩⟩
  obtain _ | ⟨w, words⟩ := words
  · cases closes with
    | false =>
      rw [laterLanguage, List.map_nil, List.prod_nil, one_mul] at h
      exact absurd h ne
    | true =>
      rw [laterLanguage, List.map_nil, List.prod_nil, one_mul] at h ⊢
      exact longer h
  · rw [laterLanguage, List.map_cons, List.prod_cons, mul_assoc, mul_assoc] at h ⊢
    obtain ⟨g, hg, v, hv, rfl⟩ := Language.mem_mul.1 h
    exact Language.append_mem_mul (longer hg) hv

/-- A text is its words with its own blanks. -/
theorem mem_laterLanguage (t : Text) :
    t ∈ ({(Text.splitWords t).1} : TextLanguage) *
      laterLanguage (Text.splitWords t).2 t.endsBlank := by
  induction t with
  | nil => exact ⟨[], rfl, [], ⟨[], rfl, [], rfl, rfl⟩, rfl⟩
  | cons c t ih =>
    obtain ⟨_, rfl, v, hv, e⟩ := Language.mem_mul.1 ih
    have ends (ne : t ≠ []) : Text.endsBlank (c :: t) = Text.endsBlank t := by
      obtain ⟨d, t, rfl⟩ := List.exists_cons_of_ne_nil ne
      rw [Text.endsBlank, List.getLast?_cons_cons]
      rfl
    cases blank : isBlank c with
    | false =>
      have split : Text.splitWords (c :: t) = (c :: (Text.splitWords t).1, (Text.splitWords t).2) := by
        simp [Text.splitWords, blank]
      have same : Text.endsBlank (c :: t) = Text.endsBlank t := by
        obtain _ | ⟨d, t⟩ := t
        · simp [Text.endsBlank, blank]
        · exact ends (List.cons_ne_nil d t)
      rw [split, same]
      exact ⟨_, rfl, v, hv, congrArg (c :: ·) e⟩
    | true =>
      have split : Text.splitWords (c :: t) =
          ([], Text.closeWord (Text.splitWords t).1 (Text.splitWords t).2) := by
        simp [Text.splitWords, blank]
      have whole : c :: t ∈ laterLanguage (Text.closeWord (Text.splitWords t).1 (Text.splitWords t).2)
          (Text.endsBlank (c :: t)) := by
        by_cases ne : t = []
        · subst ne
          have closes : Text.endsBlank [c] = true := by simp [Text.endsBlank, blank]
          rw [closes]
          exact ⟨[], rfl, [c], ⟨List.cons_ne_nil c [], by simpa using blank⟩, rfl⟩
        · rw [ends ne]
          by_cases word : (Text.splitWords t).1 = []
          · rw [word] at e
            rw [word, Text.closeWord, if_pos (by simp)]
            have : v = t := by simpa using e
            exact cons_mem_laterLanguage blank ne (this ▸ hv)
          · rw [Text.closeWord_of_ne_nil word, laterLanguage, List.map_cons, List.prod_cons,
              mul_assoc, mul_assoc]
            exact ⟨[c], ⟨List.cons_ne_nil c [], by simpa using blank⟩, t,
              ⟨_, rfl, v, hv, e⟩, rfl⟩
      rw [split]
      exact ⟨[], rfl, c :: t, whole, rfl⟩

theorem mem_wordsLanguage_mul {first : Word} {more : List Word} {closes : Bool} {v : Text}
    (h : v ∈ laterLanguage (more.map Word.text) closes) :
    first.text ++ v ∈ wordsLanguage first more * (Space.ofLead closes).language := by
  rw [laterLanguage, List.map_map] at h
  rw [wordsLanguage, mul_assoc]
  exact Language.append_mem_mul rfl h

/-- Each text is taken by its own group. -/
theorem mem_literalGroup (t : Text) : t ∈ (literalGroup t).language := by
  obtain ⟨_, rfl, v, hv, e⟩ := Language.mem_mul.1 (mem_laterLanguage t)
  have words := map_wordsOf t
  rw [Text.words] at words
  cases starts : t.startsBlank with
  | true =>
    rw [Text.splitWords_of_startsBlank starts] at words e
    obtain rfl : v = t := e
    rw [literalGroup, starts]
    rw [← show (wordsOf v).map Word.text = (Text.splitWords v).2 from words] at hv
    cases found : wordsOf v with
    | nil =>
      have none : Text.words v = [] := by rw [← map_wordsOf, found, List.map_nil]
      have ne : v ≠ [] := by
        rintro rfl
        cases starts
      exact ⟨ne, Text.isBlank_of_words_eq_nil none⟩
    | cons first more =>
      rw [found, laterLanguage, List.map_cons, List.map_cons, List.prod_cons, mul_assoc,
        mul_assoc] at hv
      obtain ⟨g, hg, w, hw, rfl⟩ := Language.mem_mul.1 hv
      obtain ⟨_, rfl, z, hz, rfl⟩ := Language.mem_mul.1 hw
      rw [Group.language, mul_assoc]
      exact Language.append_mem_mul hg (mem_wordsLanguage_mul hz)
  | false =>
    by_cases ne : t = []
    · subst ne
      exact rfl
    · rw [Text.closeWord_of_ne_nil (Text.splitWords_of_startsInk ne starts)] at words
      obtain ⟨first, more, found, own, rest⟩ := List.map_eq_cons_iff.1 words
      rw [← rest] at hv
      rw [← own] at e
      rw [literalGroup, found, starts, Group.language, mul_assoc]
      have whole : first.text ++ v ∈ _ := mem_wordsLanguage_mul hv
      rw [e] at whole
      exact ⟨[], rfl, t, whole, rfl⟩

theorem wordsOf_eq (h : t.words = u.words) : wordsOf t = wordsOf u := by
  have injective : Function.Injective Word.text := by
    rintro ⟨_, _, _⟩ ⟨_, _, _⟩ rfl
    rfl
  apply List.map_injective_iff.2 injective
  rw [map_wordsOf, map_wordsOf, h]

theorem literalGroup_eq (h : Text.Alike t u) : literalGroup t = literalGroup u := by
  rw [literalGroup, literalGroup, wordsOf_eq h.words_eq, h.startsBlank_eq, h.endsBlank_eq]

/-- The texts of a literal group are alike. -/
theorem exists_represents_literalGroup (t : Text) :
    ∃ s, Represents [s] (literalGroup t).language := by
  have one (lead : Bool) : ∃ s, Represents [s] (Space.ofLead lead).language := by
    cases lead
    · exact ⟨[], .one⟩
    · exact ⟨[' '], .blanks⟩
  rw [literalGroup]
  cases wordsOf t with
  | nil => exact one _
  | cons first more =>
    obtain ⟨lead, before⟩ := one t.startsBlank
    obtain ⟨tail, after⟩ := one t.endsBlank
    exact ⟨lead ++ spellWords first more ++ tail,
      (before.mul (represents_words first more)).mul after⟩

/-- The group of a literal text takes the texts that differ from it in the amount of white space
alone. -/
theorem mem_literalGroup_iff : u ∈ (literalGroup t).language ↔ Text.Alike u t := by
  constructor
  · intro mem
    obtain ⟨s, represents⟩ := exists_represents_literalGroup t
    obtain ⟨_, hs, alike⟩ := represents.complete u mem
    obtain ⟨_, hs', own⟩ := represents.complete t (mem_literalGroup t)
    rw [List.mem_singleton.1 hs] at alike
    rw [List.mem_singleton.1 hs'] at own
    exact alike.trans own.symm
  · intro alike
    rw [← literalGroup_eq alike]
    exact mem_literalGroup u

end Pattern
end StepMatch
