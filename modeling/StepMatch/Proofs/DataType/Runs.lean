import StepMatch.Proofs.Regex.Shared
import StepMatch.Proofs.Text.Case
import StepMatch.Proofs.Text.Squeeze

/-!
# Digits and marks

A text seen as its runs of digits and its marks, which are all that is neither a digit nor blank nor a
comma. Both are put together from those of its pieces, as long as something stands between two runs.
-/

namespace StepMatch

variable {t u v w g : Text} {c c' : Char}

/-- Texts up to the first characters without a property are the same if the texts on the whole are. -/
theorem eq_of_append_cons {p : Char → Prop} (ht : ∀ x ∈ t, p x) (hu : ∀ x ∈ u, p x) (hc : ¬ p c) (hc' : ¬ p c')
    (h : t ++ c :: v = u ++ c' :: w) : t = u ∧ c = c' ∧ v = w := by
  induction t generalizing u with
  | nil =>
    cases u with
    | nil => simpa using h
    | cons x u =>
      obtain rfl : c = x := (List.cons.inj h).1
      exact absurd (hu c List.mem_cons_self) hc
  | cons x t ih =>
    obtain ⟨own, rest⟩ := List.forall_mem_cons.1 ht
    cases u with
    | nil =>
      obtain rfl : x = c' := (List.cons.inj h).1
      exact absurd own hc'
    | cons y u =>
      obtain ⟨rfl, later⟩ := List.cons.inj h
      obtain ⟨rfl, same⟩ := ih rest (List.forall_mem_cons.1 hu).2 later
      exact ⟨rfl, same⟩

/-- The same from the other end. -/
theorem eq_of_append_cons_right {p : Char → Prop} (hv : ∀ x ∈ v, p x) (hw : ∀ x ∈ w, p x) (hc : ¬ p c)
    (hc' : ¬ p c') (h : t ++ c :: v = u ++ c' :: w) : t = u ∧ c = c' ∧ v = w := by
  have turned : v.reverse ++ c :: t.reverse = w.reverse ++ c' :: u.reverse := by
    simpa using congrArg List.reverse h
  obtain ⟨later, own, front⟩ := eq_of_append_cons (fun x hx => hv x (List.mem_reverse.1 hx))
    (fun x hx => hw x (List.mem_reverse.1 hx)) hc hc' turned
  exact ⟨List.reverse_injective front, own, List.reverse_injective later⟩

theorem isDigit_eq_false_of_isBlank (h : isBlank c) : isDigit c = false := by
  by_contra digit
  rw [Bool.not_eq_false] at digit
  rw [isBlank_eq_false_of_isDigit digit] at h
  cases h

/-- The character, if it is a digit, and else a space. -/
def digitOrSpace (c : Char) : Char := if isDigit c then c else ' '

/-- The runs of digits in a text. -/
def digitRuns (t : Text) : List Text := Text.words (t.map digitOrSpace)

theorem isBlank_digitOrSpace (c : Char) : isBlank (digitOrSpace c) = !isDigit c := by
  rw [digitOrSpace]
  split
  · rename_i digit
    rw [isBlank_eq_false_of_isDigit digit, digit]
    rfl
  · rename_i other
    rw [Bool.eq_false_iff.2 other]
    rfl

theorem digitRuns_of_isDigit (ne : t ≠ []) (digits : ∀ c ∈ t, isDigit c) : digitRuns t = [t] := by
  have same : t.map digitOrSpace = t := by
    conv_rhs => rw [← List.map_id t]
    exact List.map_congr_left fun c hc => if_pos (digits c hc)
  rw [digitRuns, same]
  refine Text.words_of_ink ne ?_
  rw [List.any_eq_false]
  exact fun c hc => by simp [isBlank_eq_false_of_isDigit (digits c hc)]

theorem digitRuns_of_not (others : ∀ c ∈ t, isDigit c = false) : digitRuns t = [] :=
  Text.words_of_blank fun b hb => by
    obtain ⟨c, hc, rfl⟩ := List.mem_map.1 hb
    rw [isBlank_digitOrSpace, others c hc]
    rfl

/-- Runs are apart where something else stands between them. -/
theorem digitRuns_append (ne : g ≠ []) (others : ∀ c ∈ g, isDigit c = false) (t u : Text) :
    digitRuns (t ++ g ++ u) = digitRuns t ++ digitRuns u := by
  have blank : ∀ b ∈ g.map digitOrSpace, isBlank b := fun b hb => by
    obtain ⟨c, hc, rfl⟩ := List.mem_map.1 hb
    rw [isBlank_digitOrSpace, others c hc]
    rfl
  obtain ⟨b, bs, split⟩ := List.exists_cons_of_ne_nil (l := g.map digitOrSpace) (by simpa using ne)
  rw [split] at blank
  obtain ⟨own, rest⟩ := List.forall_mem_cons.1 blank
  rw [digitRuns, List.map_append, List.map_append, split, List.append_assoc, List.cons_append,
    Text.words_append_blank own]
  congr 1
  obtain rfl | ne' := eq_or_ne bs []
  · rfl
  · have closes : Text.endsBlank bs = true := by
      rw [Text.endsBlank, List.getLast?_eq_some_getLast ne']
      exact rest _ (List.getLast_mem ne')
    rw [Text.words_append_of_endsBlank closes, Text.words_of_blank rest]
    rfl

theorem digitRuns_append_right (others : ∀ c ∈ g, isDigit c = false) (t : Text) :
    digitRuns (t ++ g) = digitRuns t := by
  obtain rfl | ne := eq_or_ne g []
  · rw [List.append_nil]
  · have := digitRuns_append ne others t []
    rwa [List.append_nil, digitRuns_of_not (t := []) (by simp), List.append_nil] at this

/-- A character that is neither a digit nor blank nor a comma. -/
def isMark (c : Char) : Bool := !isDigit c && !isBlank c && c != ','

theorem isMark_iff : isMark c ↔ isDigit c = false ∧ isBlank c = false ∧ c ≠ ',' := by
  simp [isMark, and_assoc]

/-- The marks of a text. -/
def marks (t : Text) : Text := t.filter isMark

theorem marks_append (t u : Text) : marks (t ++ u) = marks t ++ marks u := List.filter_append ..

theorem marks_eq_self (h : ∀ c ∈ t, isMark c) : marks t = t := List.filter_eq_self.2 h

theorem marks_eq_nil (h : ∀ c ∈ t, isMark c = false) : marks t = [] :=
  List.filter_eq_nil_iff.2 fun c hc => by simp [h c hc]

theorem marks_of_isDigit (digits : ∀ c ∈ t, isDigit c) : marks t = [] :=
  marks_eq_nil fun c hc => by simp [isMark, digits c hc]

/-- White space does not show in the marks. -/
theorem marks_eq_of_alike (h : Text.Alike t u) : marks t = marks u := by
  have twice (t : Text) : marks t = marks (t.filter isInk) := by
    rw [marks, marks, List.filter_filter]
    exact List.filter_congr fun c _ => by
      cases h : isBlank c <;> simp [isMark, isInk, h]
  rw [twice t, twice u, h.filter_eq]

/-- Texts that differ in white space alone have the same characters but for it. -/
theorem mem_of_alike (h : Text.Alike t u) (hc : c ∈ t) : isBlank c ∨ c ∈ u := by
  cases blank : isBlank c
  · refine .inr (List.mem_of_mem_filter (p := isInk) ?_)
    rw [← h.filter_eq]
    exact List.mem_filter.2 ⟨hc, by simp [isInk, blank]⟩
  · exact .inl rfl

/-- What is a mark in one case is one in any case. -/
theorem isMark_of_foldCase (h : isMark (foldCase c)) : isMark c := by
  by_contra not
  have comma : foldCase ',' = ',' := by decide
  have same : foldCase c = c := by
    simp only [isMark, Bool.and_eq_true, Bool.not_eq_true', bne_iff_ne, ne_eq, not_and_or, Bool.not_eq_false,
      not_not] at not
    obtain (digit | blank) | rfl := not
    · exact foldCase_of_isDigit_or_isBlank c (.inl digit)
    · exact foldCase_of_isDigit_or_isBlank c (.inr blank)
    · exact comma
  exact not (same ▸ h)

end StepMatch
