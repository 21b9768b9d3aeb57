/-!
# Text and white space

Text is a list of characters. This module fixes which characters are blank (the Unicode
property `White_Space`), and how text is trimmed and cut into words.
-/

namespace StepMatch

/-- Text is the list of its characters. -/
abbrev Text := List Char

/-- The characters with the Unicode property `White_Space`. -/
def isBlank (c : Char) : Bool :=
  let n := c.toNat
  if n < 0x80 then n == 0x20 || (0x09 ≤ n && n ≤ 0x0D)
  else n == 0x85 || n == 0xA0 || n == 0x1680 || (0x2000 ≤ n && n ≤ 0x200A)
    || n == 0x2028 || n == 0x2029 || n == 0x202F || n == 0x205F || n == 0x3000

/-- The characters that words are made of. -/
def isInk (c : Char) : Bool := !isBlank c

namespace Text

/-- The text without its leading blanks. -/
def trimLeft (t : Text) : Text := t.dropWhile isBlank

/-- The text without its trailing blanks. -/
def trimRight (t : Text) : Text := (t.reverse.dropWhile isBlank).reverse

/-- The text without the blanks at either end. -/
def trim (t : Text) : Text := trimRight (trimLeft t)

/-- Only blanks are lost, and only at the ends. -/
theorem eq_append_trim (t : Text) :
    ∃ left right, t = left ++ t.trim ++ right ∧ ∀ c ∈ left ++ right, isBlank c := by
  refine ⟨t.takeWhile isBlank, (t.trimLeft.reverse.takeWhile isBlank).reverse, ?_, ?_⟩
  · rw [trim, trimRight, List.append_assoc, ← List.reverse_append,
      List.takeWhile_append_dropWhile, List.reverse_reverse, trimLeft,
      List.takeWhile_append_dropWhile]
  · intro c hc
    rcases List.mem_append.1 hc with hc | hc
    · exact List.all_eq_true.1 List.all_takeWhile c hc
    · exact List.all_eq_true.1 List.all_takeWhile c (List.mem_reverse.1 hc)

/-- Whether the text opens with a blank. -/
def startsBlank (t : Text) : Bool := t.head?.any isBlank

/-- Whether the text closes with a blank. -/
def endsBlank (t : Text) : Bool := t.getLast?.any isBlank

theorem startsBlank_trimLeft (t : Text) : t.trimLeft.startsBlank = false := by
  have first := List.head?_dropWhile_not isBlank t
  rw [startsBlank, trimLeft]
  cases rest : t.dropWhile isBlank with
  | nil => rfl
  | cons c u =>
    rw [rest] at first
    exact first

theorem trimLeft_of_startsInk {t : Text} (h : t.startsBlank = false) : t.trimLeft = t := by
  cases t with
  | nil => rfl
  | cons c t =>
    have ink : isBlank c = false := by simpa [startsBlank] using h
    simp [trimLeft, ink]

theorem startsBlank_trim (t : Text) : t.trim.startsBlank = false := by
  have split : t.trimLeft = t.trim ++ (t.trimLeft.reverse.takeWhile isBlank).reverse := by
    rw [trim, trimRight, ← List.reverse_append, List.takeWhile_append_dropWhile,
      List.reverse_reverse]
  have first := startsBlank_trimLeft t
  rw [split] at first
  cases h : t.trim with
  | nil => rfl
  | cons c u => simpa [h, startsBlank] using first

/-- Trimming leaves nothing to trim. -/
theorem trim_trim (t : Text) : t.trim.trim = t.trim := by
  have closes : t.trim.trimRight = t.trim := by
    have opens := startsBlank_trimLeft t.trimLeft.reverse
    rw [trim, trimRight, trimRight, List.reverse_reverse]
    exact congrArg List.reverse (trimLeft_of_startsInk opens)
  rw [trim, trimLeft_of_startsInk (startsBlank_trim t), closes]

/-- A finished word goes in front of the words after it; an empty one is no word. -/
def closeWord (word : Text) (later : List Text) : List Text :=
  if word.isEmpty then later else word :: later

/-- The word that touches the start of the text, and the words after it. -/
def splitWords : Text → Text × List Text
  | [] => ([], [])
  | c :: t =>
    let (word, later) := splitWords t
    if isBlank c then ([], closeWord word later) else (c :: word, later)

/-- The maximal runs of characters that are not blank, in order. -/
def words (t : Text) : List Text :=
  closeWord (splitWords t).1 (splitWords t).2

theorem flatten_closeWord (word : Text) (later : List Text) :
    (closeWord word later).flatten = word ++ later.flatten := by
  cases word <;> simp [closeWord]

/-- The words hold what is not blank, in order. -/
theorem flatten_words (t : Text) : t.words.flatten = t.filter isInk := by
  rw [words, flatten_closeWord]
  induction t with
  | nil => rfl
  | cons c t ih =>
    cases h : isBlank c <;> simp [splitWords, isInk, h, ← ih, flatten_closeWord]

theorem mem_of_mem_closeWord {word w : Text} {later : List Text} (h : w ∈ closeWord word later) :
    (w = word ∧ word ≠ []) ∨ w ∈ later := by
  cases word with
  | nil => exact .inr h
  | cons c cs =>
    rcases List.mem_cons.1 h with rfl | h
    · exact .inl ⟨rfl, List.cons_ne_nil c cs⟩
    · exact .inr h

/-- No word is empty. -/
theorem ne_nil_of_mem_words {t w : Text} (h : w ∈ t.words) : w ≠ [] := by
  have later : ∀ (t : Text), ∀ w ∈ (splitWords t).2, w ≠ [] := by
    intro t
    induction t with
    | nil => simp [splitWords]
    | cons c t ih =>
      intro w h
      cases hc : isBlank c <;> simp only [splitWords, hc, Bool.false_eq_true, if_true, if_false] at h
      · exact ih w h
      · rcases mem_of_mem_closeWord h with ⟨rfl, ne⟩ | h
        · exact ne
        · exact ih w h
  rcases mem_of_mem_closeWord h with ⟨rfl, ne⟩ | h
  · exact ne
  · exact later t w h

/-- No word holds a blank. -/
theorem isInk_of_mem_words {t w : Text} (h : w ∈ t.words) : ∀ c ∈ w, isInk c := by
  intro c hc
  have inside : c ∈ t.words.flatten := List.mem_flatten.2 ⟨w, h, hc⟩
  rw [flatten_words] at inside
  exact (List.mem_filter.1 inside).2

/-- The text before and after the first character with the property, when there is one. -/
def splitAtFirst (t : Text) (p : Char → Bool) : Option (Text × Text) :=
  match t.dropWhile (fun c => !p c) with
  | [] => none
  | _ :: after => some (t.takeWhile (fun c => !p c), after)

/-- The character of the cut is the first with the property, and nothing else is lost. -/
theorem eq_append_of_splitAtFirst {t before after : Text} {p : Char → Bool}
    (h : t.splitAtFirst p = some (before, after)) :
    ∃ c, p c ∧ t = before ++ c :: after ∧ ∀ d ∈ before, p d = false := by
  unfold splitAtFirst at h
  split at h
  · simp at h
  · rename_i c rest found
    obtain ⟨rfl, rfl⟩ := Prod.mk.inj (Option.some.inj h)
    refine ⟨c, ?_, ?_, fun d hd => by simpa using List.all_eq_true.1 List.all_takeWhile d hd⟩
    · have first := List.head?_dropWhile_not (fun c => !p c) t
      simpa [found] using first
    · rw [← found, List.takeWhile_append_dropWhile]

/-- The first character with the property is where the text is cut. -/
theorem splitAtFirst_append_cons {t u : Text} {c : Char} {p : Char → Bool} (apart : ∀ d ∈ t, p d = false)
    (own : p c) : splitAtFirst (t ++ c :: u) p = some (t, u) := by
  have skipped : ∀ d ∈ t, (!p d) = true := fun d hd => by rw [apart d hd]; rfl
  have stops : ¬ (!p c) = true := by simp [own]
  rw [splitAtFirst, List.dropWhile_append_of_pos skipped, List.takeWhile_append_of_pos skipped,
    List.dropWhile_cons_of_neg (p := fun d => !p d) stops,
    List.takeWhile_cons_of_neg (p := fun d => !p d) stops, List.append_nil]

/-- The texts with `separator` written between neighbours. -/
def joinWith (separator : Text) (ts : List Text) : Text :=
  (ts.intersperse separator).flatten

/-- The part of the text before a given ending, when the text ends so. -/
def withoutEnding? (t ending : Text) : Option Text := ending.isSuffixOf? t

/-- The part of the text after a given opening, when the text opens so. -/
def withoutOpening? (t opening : Text) : Option Text := opening.isPrefixOf? t

/-- The text as a string. -/
def asString (t : Text) : String := String.ofList t

end Text
end StepMatch
