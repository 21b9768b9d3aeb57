import StepMatch.Text.Blank

/-!
# Squeezing white space

One space for each run of blanks, and none at either end. Text is squeezed from left to right, and
all that has to be known of what stands in front is whether a blank is there. So text that is put
together from pieces is squeezed piece by piece.
-/

namespace StepMatch.Text

/-- The text with one space for each run of blanks; `blank` says whether a blank stands in front. -/
def squeeze (blank : Bool) : Text → Text
  | [] => []
  | c :: t =>
    if isBlank c then (if blank then squeeze true t else ' ' :: squeeze true t)
    else c :: squeeze false t

/-- Whether a blank stands at the end of the text, or in front of it if there is no text. -/
def blankAfter (blank : Bool) : Text → Bool
  | [] => blank
  | c :: t => blankAfter (isBlank c) t

/-- The text with one space for each run of blanks and none at either end. -/
def tidy (t : Text) : Text := (squeeze true t).trimRight

variable {t u v : Text} {b : Bool} {c : Char}

theorem squeeze_append (b : Bool) (t u : Text) :
    squeeze b (t ++ u) = squeeze b t ++ squeeze (blankAfter b t) u := by
  induction t generalizing b with
  | nil => rfl
  | cons c t ih =>
    cases h : isBlank c <;> cases b <;> simp [squeeze, blankAfter, h, ih]

theorem blankAfter_append (b : Bool) (t u : Text) :
    blankAfter b (t ++ u) = blankAfter (blankAfter b t) u := by
  induction t generalizing b with
  | nil => rfl
  | cons c t ih => exact ih (isBlank c)

theorem blankAfter_of_ne_nil (ne : t ≠ []) (b : Bool) : blankAfter b t = t.endsBlank := by
  induction t generalizing b with
  | nil => exact absurd rfl ne
  | cons c t ih =>
    obtain _ | ⟨d, t⟩ := t
    · simp [blankAfter, endsBlank]
    · rw [blankAfter, ih (List.cons_ne_nil d t), endsBlank, endsBlank, List.getLast?_cons_cons]

/-- What a blank in front changes is the first space. -/
theorem squeeze_eq (b : Bool) (t : Text) :
    squeeze b t = (if t.startsBlank && !b then [' '] else []) ++ squeeze true t := by
  obtain _ | ⟨c, t⟩ := t
  · rfl
  · cases h : isBlank c <;> cases b <;> simp [squeeze, startsBlank, h]

theorem squeeze_of_startsBlank (h : t.startsBlank = true) : squeeze false t = ' ' :: squeeze true t := by
  rw [squeeze_eq, h]
  rfl

theorem squeeze_of_startsInk (h : t.startsBlank = false) (b : Bool) :
    squeeze b t = squeeze true t := by
  rw [squeeze_eq, h]
  rfl

/-- Text that leaves nothing has no ink, and so whether a blank stands there does not change. -/
theorem blankAfter_of_squeeze_eq_nil (h : squeeze b t = []) : blankAfter b t = b := by
  induction t generalizing b with
  | nil => rfl
  | cons c t ih =>
    cases blank : isBlank c <;> cases b <;> simp only [squeeze, blank] at h
    all_goals first | cases h | skip
    rw [blankAfter, blank]
    exact ih h

theorem squeeze_of_blank (h : ∀ c ∈ t, isBlank c) : squeeze true t = [] := by
  induction t with
  | nil => rfl
  | cons c t ih =>
    obtain ⟨hc, h⟩ := List.forall_mem_cons.1 h
    simpa [squeeze, hc] using ih h

theorem squeeze_of_ink (b : Bool) (h : t.any isBlank = false) : squeeze b t = t := by
  induction t generalizing b with
  | nil => rfl
  | cons c t ih =>
    rw [List.any_cons, Bool.or_eq_false_iff] at h
    rw [squeeze, h.1, if_neg Bool.false_ne_true, ih false h.2]

theorem startsBlank_of_ink (h : t.any isBlank = false) : t.startsBlank = false := by
  cases t with
  | nil => rfl
  | cons c t =>
    rw [List.any_cons, Bool.or_eq_false_iff] at h
    exact h.1

theorem endsBlank_of_ink (h : t.any isBlank = false) : t.endsBlank = false := by
  rw [endsBlank, Option.any_eq_false]
  intro c hc
  simpa using List.any_eq_false.1 h c (List.mem_of_getLast? hc)

/-- Some blank stays where there is one. -/
theorem any_isBlank_squeeze (t : Text) : (squeeze false t).any isBlank = t.any isBlank := by
  induction t with
  | nil => rfl
  | cons c t ih =>
    cases blank : isBlank c with
    | true =>
      rw [squeeze, if_pos blank, if_neg Bool.false_ne_true, List.any_cons, List.any_cons, blank]
      rfl
    | false => rw [squeeze, blank, if_neg Bool.false_ne_true, List.any_cons, List.any_cons, ih]

theorem splitWords_of_startsBlank (h : t.startsBlank = true) : (splitWords t).1 = [] := by
  obtain _ | ⟨c, t⟩ := t
  · rfl
  · have blank : isBlank c = true := by simpa [startsBlank] using h
    simp [splitWords, blank]

theorem splitWords_of_startsInk (ne : t ≠ []) (h : t.startsBlank = false) :
    (splitWords t).1 ≠ [] := by
  obtain _ | ⟨c, t⟩ := t
  · exact absurd rfl ne
  · have ink : isBlank c = false := by simpa [startsBlank] using h
    simp [splitWords, ink]

theorem splitWords_of_ink (h : t.any isBlank = false) : splitWords t = (t, []) := by
  induction t with
  | nil => rfl
  | cons c t ih =>
    rw [List.any_cons, Bool.or_eq_false_iff] at h
    simp [splitWords, h.1, ih h.2]

/-- Two words have a blank between them. -/
theorem any_isBlank_of_words (several : 2 ≤ t.words.length) : t.any isBlank = true := by
  cases blank : t.any isBlank with
  | true => rfl
  | false =>
    rw [words, splitWords_of_ink blank] at several
    cases t <;> simp [closeWord] at several

theorem words_of_ink (ne : t ≠ []) (h : t.any isBlank = false) : t.words = [t] := by
  obtain ⟨c, t, rfl⟩ := List.exists_cons_of_ne_nil ne
  rw [words, splitWords_of_ink h]
  rfl

theorem closeWord_append (word : Text) (later later' : List Text) :
    closeWord word (later ++ later') = closeWord word later ++ later' := by
  cases word <;> rfl

/-- The words before and after a blank. -/
theorem words_append_blank {c : Char} (blank : isBlank c = true) (t u : Text) :
    words (t ++ c :: u) = words t ++ words u := by
  have split (t : Text) :
      splitWords (t ++ c :: u) = ((splitWords t).1, (splitWords t).2 ++ words u) := by
    induction t with
    | nil => simp [splitWords, blank, words]
    | cons c t ih =>
      cases own : isBlank c <;> simp [splitWords, own, ih, closeWord_append]
  rw [words, split, closeWord_append]
  rfl

theorem words_append_space (t u : Text) : words (t ++ ' ' :: u) = words t ++ words u :=
  words_append_blank rfl t u

/-- A text that closes with a blank shares no word with what follows. -/
theorem words_append_of_endsBlank (h : t.endsBlank = true) (u : Text) :
    words (t ++ u) = words t ++ words u := by
  obtain ⟨c, last, blank⟩ := (Option.any_eq_true _ _).1 h
  obtain ⟨front, rfl⟩ := List.getLast?_eq_some_iff.1 last
  rw [List.append_assoc, List.singleton_append, words_append_blank blank, words_append_blank blank]
  simp [words, splitWords, closeWord]

theorem closeWord_of_ne_nil {word : Text} (ne : word ≠ []) (later : List Text) :
    closeWord word later = word :: later := by
  rw [closeWord, if_neg (by simpa using ne)]

/-- A space if a blank stands at the end. -/
def spaceAtEnd (t : Text) : Text := if t.endsBlank then [' '] else []

theorem spaceAtEnd_cons (ne : t ≠ []) (c : Char) : spaceAtEnd (c :: t) = spaceAtEnd t := by
  obtain ⟨d, t, rfl⟩ := List.exists_cons_of_ne_nil ne
  rw [spaceAtEnd, endsBlank, List.getLast?_cons_cons]
  rfl

/-- After ink, the word that touches the start is kept, and a space goes in front of each word after
it. -/
theorem squeeze_false_eq (t : Text) :
    squeeze false t = (splitWords t).1 ++ (splitWords t).2.flatMap (' ' :: ·) ++ spaceAtEnd t := by
  induction t with
  | nil => rfl
  | cons c t ih =>
    by_cases ne : t = []
    · subst ne
      cases h : isBlank c <;> simp [squeeze, splitWords, closeWord, spaceAtEnd, endsBlank, h]
    · rw [spaceAtEnd_cons ne]
      cases h : isBlank c with
      | false => simp [squeeze, splitWords, h, ih]
      | true =>
        have split : splitWords (c :: t) = ([], closeWord (splitWords t).1 (splitWords t).2) := by
          simp [splitWords, h]
        have squeezed : squeeze false (c :: t) = ' ' :: squeeze true t := by simp [squeeze, h]
        rw [split, squeezed]
        cases starts : startsBlank t with
        | true =>
          rw [← squeeze_of_startsBlank starts, ih, splitWords_of_startsBlank starts]
          rfl
        | false =>
          rw [← squeeze_of_startsInk starts false, ih,
            closeWord_of_ne_nil (splitWords_of_startsInk ne starts)]
          simp

/-- After a blank there are the words with one space between neighbours, and one at the end if a
blank is there. -/
theorem squeeze_true_eq {first : Text} {more : List Text} (h : t.words = first :: more) :
    squeeze true t = first ++ more.flatMap (' ' :: ·) ++ spaceAtEnd t := by
  have ne : t ≠ [] := by
    rintro rfl
    cases h
  have squeezed := squeeze_false_eq t
  rw [words] at h
  cases starts : t.startsBlank with
  | true =>
    rw [splitWords_of_startsBlank starts] at h squeezed
    have later : (splitWords t).2 = first :: more := h
    rw [squeeze_of_startsBlank starts, later] at squeezed
    simpa using squeezed
  | false =>
    rw [closeWord_of_ne_nil (splitWords_of_startsInk ne starts)] at h
    obtain ⟨rfl, rfl⟩ := List.cons.inj h
    rw [← squeeze_of_startsInk starts false]
    exact squeezed

/-- A text that opens with ink opens with its first word. -/
theorem prefix_of_words_eq {first : Text} {more : List Text} (ink : t.startsBlank = false)
    (h : t.words = first :: more) : first <+: t := by
  have ne : t ≠ [] := by
    rintro rfl
    cases h
  have touching (t : Text) : (splitWords t).1 <+: t := by
    induction t with
    | nil => exact List.prefix_refl _
    | cons c t ih =>
      cases blank : isBlank c with
      | true => simp [splitWords, blank]
      | false => simpa [splitWords, blank] using ih
  rw [words, closeWord_of_ne_nil (splitWords_of_startsInk ne ink)] at h
  rw [← (List.cons.inj h).1]
  exact touching t

theorem startsBlank_of_words_eq_nil (ne : t ≠ []) (h : t.words = []) : t.startsBlank = true := by
  cases starts : t.startsBlank with
  | true => rfl
  | false =>
    rw [words, closeWord_of_ne_nil (splitWords_of_startsInk ne starts)] at h
    cases h

theorem isBlank_of_words_eq_nil (h : t.words = []) : ∀ c ∈ t, isBlank c := by
  have ink := flatten_words t
  rw [h, eq_comm] at ink
  intro c hc
  simpa [isInk] using List.filter_eq_nil_iff.1 ink c hc

theorem endsBlank_of_words_eq_nil (ne : t ≠ []) (h : t.words = []) : t.endsBlank = true := by
  obtain ⟨t, c, rfl⟩ := (List.eq_nil_or_concat t).resolve_left ne
  have blank : isBlank c := isBlank_of_words_eq_nil h c (by simp)
  simp [endsBlank, blank]

/-- Squeezing again changes nothing, after a blank at least if it was after one the first time. -/
theorem squeeze_squeeze {b b' : Bool} (h : b' = true → b = true) (t : Text) :
    squeeze b (squeeze b' t) = squeeze b t := by
  induction t generalizing b b' with
  | nil => rfl
  | cons c t ih =>
    cases blank : isBlank c with
    | false =>
      have step := @ih false false id
      simp [squeeze, blank, step]
    | true =>
      have step := @ih true true id
      have space : isBlank ' ' = true := rfl
      cases b' with
      | true =>
        obtain rfl := h rfl
        simpa [squeeze, blank] using step
      | false => cases b <;> simp [squeeze, blank, space, step]

theorem blankAfter_squeeze (b : Bool) (t : Text) : blankAfter b (squeeze b t) = blankAfter b t := by
  induction t generalizing b with
  | nil => rfl
  | cons c t ih =>
    have space : isBlank ' ' = true := rfl
    cases blank : isBlank c <;> cases b <;> simp [squeeze, blankAfter, blank, space, ih]

theorem endsBlank_squeeze (h : blankAfter b t = false) : (squeeze b t).endsBlank = false := by
  by_cases ne : squeeze b t = []
  · rw [ne]
    rfl
  · rw [← blankAfter_of_ne_nil ne b, blankAfter_squeeze, h]

/-- What is left of a blank at the end is a space, unless nothing is left at all. -/
theorem squeeze_eq_nil_or_concat (h : blankAfter b t = true) :
    squeeze b t = [] ∨ ∃ u, squeeze b t = u ++ [' '] := by
  induction t generalizing b with
  | nil => exact .inl rfl
  | cons c t ih =>
    rw [blankAfter] at h
    cases blank : isBlank c with
    | false =>
      rw [blank] at h
      obtain nil | ⟨u, e⟩ := ih h
      · rw [blankAfter_of_squeeze_eq_nil nil] at h
        cases h
      · exact .inr ⟨c :: u, by simp [squeeze, blank, e]⟩
    | true =>
      rw [blank] at h
      have later := ih h
      cases b with
      | true => simpa [squeeze, blank] using later
      | false =>
        obtain nil | ⟨u, e⟩ := later
        · exact .inr ⟨[], by simp [squeeze, blank, nil]⟩
        · exact .inr ⟨' ' :: u, by simp [squeeze, blank, e]⟩

theorem mem_squeeze (h : c ∈ squeeze b t) : c = ' ' ∨ c ∈ t := by
  induction t generalizing b with
  | nil => cases h
  | cons d t ih =>
    cases blank : isBlank d <;> cases b <;>
      simp only [squeeze, blank, if_true, if_false, Bool.false_eq_true, List.mem_cons] at h
    · exact h.elim (fun e => .inr (e ▸ List.mem_cons_self)) fun h =>
        (ih h).imp_right (List.mem_cons_of_mem d)
    · exact h.elim (fun e => .inr (e ▸ List.mem_cons_self)) fun h =>
        (ih h).imp_right (List.mem_cons_of_mem d)
    · exact h.elim .inl fun h => (ih h).imp_right (List.mem_cons_of_mem d)
    · exact (ih h).imp_right (List.mem_cons_of_mem d)

/-- What is cut off on the right is blank, and ink is left there. -/
theorem eq_append_trimRight (t : Text) : ∃ w, t = t.trimRight ++ w ∧ (∀ c ∈ w, isBlank c) ∧
    t.trimRight.endsBlank = false := by
  refine ⟨(t.reverse.takeWhile isBlank).reverse, ?_, ?_, ?_⟩
  · rw [trimRight, ← List.reverse_append, List.takeWhile_append_dropWhile, List.reverse_reverse]
  · intro c hc
    exact List.all_eq_true.1 List.all_takeWhile c (List.mem_reverse.1 hc)
  · have first := startsBlank_trimLeft t.reverse
    rw [trimRight, endsBlank, List.getLast?_reverse]
    exact first

theorem trimRight_of_endsInk (h : t.endsBlank = false) : t.trimRight = t := by
  obtain rfl | ⟨t, c, rfl⟩ := List.eq_nil_or_concat t
  · rfl
  · have ink : isBlank c = false := by simpa [endsBlank] using h
    simp [trimRight, ink]

theorem trimRight_append_blanks (blank : ∀ c ∈ v, isBlank c) (u : Text) :
    (u ++ v).trimRight = u.trimRight := by
  rw [trimRight, List.reverse_append,
    List.dropWhile_append_of_pos fun c hc => blank c (List.mem_reverse.1 hc), trimRight]

theorem trim_of_ink (opens : t.startsBlank = false) (closes : t.endsBlank = false) : t.trim = t := by
  rw [trim, trimLeft_of_startsInk opens, trimRight_of_endsInk closes]

theorem words_of_blank (h : ∀ c ∈ t, isBlank c) : t.words = [] := by
  have none : t.words.flatten = [] := by
    rw [flatten_words, List.filter_eq_nil_iff]
    intro c hc
    simp [isInk, h c hc]
  rw [List.eq_nil_iff_forall_not_mem]
  intro w hw
  exact ne_nil_of_mem_words hw (List.flatten_eq_nil_iff.1 none w hw)

/-- What trimming takes on the left is blank. -/
theorem eq_append_trimLeft (t : Text) : ∃ w, t = w ++ t.trimLeft ∧ ∀ c ∈ w, isBlank c :=
  ⟨t.takeWhile isBlank, List.takeWhile_append_dropWhile.symm,
    fun c hc => List.all_eq_true.1 List.all_takeWhile c hc⟩

theorem squeeze_true_trimLeft (t : Text) : squeeze true t.trimLeft = squeeze true t := by
  obtain ⟨w, split, blank⟩ := eq_append_trimLeft t
  have none := squeeze_of_blank blank
  have whole := congrArg (squeeze true) split
  rw [squeeze_append, none, blankAfter_of_squeeze_eq_nil none] at whole
  exact whole.symm

/-- Blanks around a text that has none at its ends are all that trimming takes. -/
theorem trim_padded {left right : Text} (blank : ∀ c ∈ left ++ right, isBlank c)
    (opens : t.startsBlank = false) (closes : t.endsBlank = false) : trim (left ++ (t ++ right)) = t := by
  have hl : ∀ c ∈ left, isBlank c := fun c hc => blank c (List.mem_append_left right hc)
  have hr : ∀ c ∈ right, isBlank c := fun c hc => blank c (List.mem_append_right left hc)
  rw [trim, trimLeft, List.dropWhile_append_of_pos hl]
  change trimRight (trimLeft (t ++ right)) = t
  by_cases ne : t = []
  · subst ne
    rw [List.nil_append, ← List.append_nil right, trimLeft, List.dropWhile_append_of_pos hr]
    rfl
  · have starts : startsBlank (t ++ right) = false := by
      obtain ⟨c, t, rfl⟩ := List.exists_cons_of_ne_nil ne
      exact opens
    rw [trimLeft_of_startsInk starts, trimRight_append_blanks hr, trimRight_of_endsInk closes]

theorem splitWords_squeeze (t : Text) :
    splitWords (squeeze false t) = splitWords t ∧ words (squeeze true t) = words t := by
  induction t with
  | nil => exact ⟨rfl, rfl⟩
  | cons c t ih =>
    obtain ⟨split, words⟩ := ih
    have space : isBlank ' ' = true := rfl
    cases blank : isBlank c with
    | false =>
      have whole : splitWords (c :: squeeze false t) = splitWords (c :: t) := by
        simp [splitWords, blank, split]
      constructor
      · simpa [squeeze, blank] using whole
      · simp [squeeze, blank, Text.words, whole]
    | true =>
      rw [Text.words, Text.words] at words
      constructor
      · simp [squeeze, blank, splitWords, space, words]
      · have same : Text.words (c :: t) = Text.words t := by
          simp [Text.words, splitWords, blank, closeWord]
        rw [same, Text.words, Text.words, ← words]
        simp [squeeze, blank]

/-- A cut of what is left cuts the text. -/
theorem exists_append_of_squeeze (e : squeeze b t = u ++ v) : ∃ t₁ t₂, t = t₁ ++ t₂ ∧
    squeeze b t₁ = u ∧ squeeze (blankAfter b t₁) t₂ = v := by
  induction t generalizing b u with
  | nil =>
    obtain ⟨rfl, rfl⟩ := List.nil_eq_append_iff.1 e
    exact ⟨[], [], rfl, rfl, rfl⟩
  | cons c t ih =>
    obtain _ | ⟨d, u⟩ := u
    · exact ⟨[], c :: t, rfl, rfl, e⟩
    · cases blank : isBlank c with
      | false =>
        simp only [squeeze, blank, Bool.false_eq_true, if_false, List.cons_append] at e
        obtain ⟨rfl, later⟩ := List.cons.inj e
        obtain ⟨t₁, t₂, rfl, rfl, rfl⟩ := ih later
        exact ⟨c :: t₁, t₂, rfl, by simp [squeeze, blank], by simp [blankAfter, blank]⟩
      | true =>
        cases b with
        | true =>
          simp only [squeeze, blank, if_true] at e
          obtain ⟨t₁, t₂, rfl, own, rfl⟩ := ih e
          exact ⟨c :: t₁, t₂, rfl, by simpa [squeeze, blank] using own,
            by simp [blankAfter, blank]⟩
        | false =>
          simp only [squeeze, blank, if_true, Bool.false_eq_true, if_false, List.cons_append] at e
          obtain ⟨rfl, later⟩ := List.cons.inj e
          obtain ⟨t₁, t₂, rfl, rfl, rfl⟩ := ih later
          exact ⟨c :: t₁, t₂, rfl, by simp [squeeze, blank], by simp [blankAfter, blank]⟩

/-- Texts that differ in the amount of white space alone, at the ends too. -/
def Alike (t u : Text) : Prop := squeeze false t = squeeze false u

instance : Decidable (Alike t u) := inferInstanceAs (Decidable (squeeze false t = squeeze false u))

namespace Alike

theorem refl (t : Text) : Alike t t := rfl

theorem symm (h : Alike t u) : Alike u t := Eq.symm h

theorem trans {v : Text} (h : Alike t u) (h' : Alike u v) : Alike t v := Eq.trans h h'

theorem words_eq (h : Alike t u) : t.words = u.words := by
  rw [words, words, ← (splitWords_squeeze t).1, ← (splitWords_squeeze u).1, h]

theorem startsBlank_eq (h : Alike t u) : t.startsBlank = u.startsBlank := by
  have own (t : Text) : (squeeze false t).startsBlank = t.startsBlank := by
    have space : isBlank ' ' = true := rfl
    obtain _ | ⟨c, t⟩ := t
    · rfl
    · cases blank : isBlank c <;> simp [squeeze, startsBlank, blank, space]
  rw [← own t, ← own u, h]

theorem endsBlank_eq (h : Alike t u) : t.endsBlank = u.endsBlank := by
  have own (t : Text) : blankAfter false t = t.endsBlank := by
    obtain _ | ⟨c, t⟩ := t
    · rfl
    · exact blankAfter_of_ne_nil (List.cons_ne_nil c t) false
  rw [← own t, ← own u, ← blankAfter_squeeze, h, blankAfter_squeeze]

theorem filter_eq (h : Alike t u) : t.filter isInk = u.filter isInk := by
  rw [← flatten_words, ← flatten_words, h.words_eq]

theorem squeeze_eq (h : Alike t u) (b : Bool) : squeeze b t = squeeze b u := by
  have never : ∀ {b : Bool}, false = true → b = true := fun h => absurd h (by decide)
  rw [← squeeze_squeeze never t, h, squeeze_squeeze never u]

theorem append {t' u' : Text} (h : Alike t u) (h' : Alike t' u') : Alike (t ++ t') (u ++ u') := by
  have blank : blankAfter false t = blankAfter false u := by
    rw [← blankAfter_squeeze, h, blankAfter_squeeze]
  rw [Alike, squeeze_append, squeeze_append, h, blank, h'.squeeze_eq]

theorem tidy_eq (h : Alike t u) : t.tidy = u.tidy := by
  rw [tidy, tidy, h.squeeze_eq]

theorem of_blanks (ht : ∀ c ∈ t, isBlank c) (hu : ∀ c ∈ u, isBlank c) (ne : t ≠ []) (ne' : u ≠ []) :
    Alike t u := by
  have one : ∀ {t : Text}, (∀ c ∈ t, isBlank c) → t ≠ [] → squeeze false t = [' '] := by
    intro t blank ne
    obtain ⟨c, t, rfl⟩ := List.exists_cons_of_ne_nil ne
    obtain ⟨hc, blank⟩ := List.forall_mem_cons.1 blank
    simp [squeeze, hc, squeeze_of_blank blank]
  rw [Alike, one ht ne, one hu ne']

theorem eq_nil_iff (h : Alike t u) : t = [] ↔ u = [] := by
  have own (t : Text) : squeeze false t = [] ↔ t = [] := by
    obtain _ | ⟨c, t⟩ := t
    · simp [squeeze]
    · cases blank : isBlank c <;> simp [squeeze, blank]
  rw [← own t, ← own u, h]

/-- A text that is like two texts in a row can be cut so that its pieces are like them, unless blanks
meet there. -/
theorem exists_append {w : Text} (apart : (t.endsBlank && u.startsBlank) = false) (h : Alike w (t ++ u)) :
    ∃ x y, w = x ++ y ∧ Alike x t ∧ Alike y u := by
  rw [Alike, squeeze_append] at h
  obtain ⟨x, y, rfl, own, later⟩ := exists_append_of_squeeze h
  have same : blankAfter false x = blankAfter false t := by
    rw [← blankAfter_squeeze, own, blankAfter_squeeze]
  rw [same] at later
  cases closes : blankAfter false t with
  | false =>
    rw [closes] at later
    exact ⟨x, y, rfl, own, later⟩
  | true =>
    have ne : t ≠ [] := by
      rintro rfl
      cases closes
    rw [closes] at later
    rw [blankAfter_of_ne_nil ne] at closes
    have opens : u.startsBlank = false := by simpa [closes] using apart
    -- blanks in front of the second piece go to the first one
    obtain ⟨z, split, blank⟩ := eq_append_trimLeft y
    refine ⟨x ++ z, y.trimLeft, by rw [List.append_assoc, ← split], ?_, ?_⟩
    · rw [Alike, squeeze_append, same, blankAfter_of_ne_nil ne, closes, squeeze_of_blank blank,
        List.append_nil, own]
    · rw [Alike, squeeze_of_startsInk (startsBlank_trimLeft y), squeeze_of_startsInk opens,
        squeeze_true_trimLeft, later]

theorem append_blanks {v w w' : Text} (h : Alike (u ++ w) v) (ne : w ≠ []) (ne' : w' ≠ [])
    (blank : ∀ c ∈ w, isBlank c) (blank' : ∀ c ∈ w', isBlank c) : Alike (u ++ w') v :=
  ((refl u).append (of_blanks blank' blank ne' ne)).trans h

/-- Texts are alike if they have the same words and the same kind of ends. -/
theorem iff_words : Alike t u ↔
    t.words = u.words ∧ t.startsBlank = u.startsBlank ∧ t.endsBlank = u.endsBlank := by
  refine ⟨fun h => ⟨h.words_eq, h.startsBlank_eq, h.endsBlank_eq⟩, ?_⟩
  rintro ⟨words, starts, ends⟩
  cases own : t.words with
  | nil =>
    have other : u.words = [] := words.symm.trans own
    by_cases ne : t = [] <;> by_cases ne' : u = []
    · rw [ne, ne']
      exact refl []
    · rw [ne, startsBlank_of_words_eq_nil ne' other] at starts
      cases starts
    · rw [ne', startsBlank_of_words_eq_nil ne own] at starts
      cases starts
    · exact of_blanks (isBlank_of_words_eq_nil own) (isBlank_of_words_eq_nil other) ne ne'
  | cons first more =>
    rw [Alike, Text.squeeze_eq, Text.squeeze_eq false u, squeeze_true_eq own,
      squeeze_true_eq (words.symm.trans own), starts, spaceAtEnd, spaceAtEnd, ends]

/-- A text that is like one without blanks is that text. -/
theorem eq_of_ink (h : Alike t u) (ink : u.any isBlank = false) : t = u := by
  have ink' : t.any isBlank = false := by
    rw [← any_isBlank_squeeze, h, any_isBlank_squeeze, ink]
  rw [← squeeze_of_ink false ink', h, squeeze_of_ink false ink]

end Alike

end StepMatch.Text
