import StepMatch.Proofs.Text.Squeeze

/-!
# Marks in text

A mark is a character that stands for any text within a line that has ink at both ends. Of any text
within a line, all that is left when it is squeezed is such text, with a space at either end or
without it, or nothing but a space. So a few texts with a mark stand for all of them, wherever they
are put.
-/

namespace StepMatch.Text

/-- Text within a line, with ink at both ends. -/
structure IsInsert (w : Text) : Prop where
  ne : w ≠ []
  starts : w.startsBlank = false
  ends : w.endsBlank = false
  inLine : ∀ c ∈ w, c ≠ '\n'

/-- The second text is the first with such text for each mark. -/
inductive Fills (mark : Char) : Text → Text → Prop where
  | nil : Fills mark [] []
  | keep {c : Char} {s t : Text} (other : c ≠ mark) (later : Fills mark s t) :
    Fills mark (c :: s) (c :: t)
  | fill {w s t : Text} (insert : w.IsInsert) (later : Fills mark s t) :
    Fills mark (mark :: s) (w ++ t)

variable {mark : Char} {s s' t t' w : Text}

namespace Fills

/-- Text without a mark stays. -/
theorem refl (free : mark ∉ t) : Fills mark t t := by
  induction t with
  | nil => exact .nil
  | cons c t ih =>
    rw [List.mem_cons, not_or] at free
    exact .keep (Ne.symm free.1) (ih free.2)

theorem append (f : Fills mark s t) (f' : Fills mark s' t') : Fills mark (s ++ s') (t ++ t') := by
  induction f with
  | nil => exact f'
  | keep other _ ih => exact .keep other ih
  | fill insert _ ih =>
    rw [List.append_assoc]
    exact .fill insert ih

theorem exists_append (f : Fills mark (s ++ s') t) :
    ∃ u u', t = u ++ u' ∧ Fills mark s u ∧ Fills mark s' u' := by
  induction s generalizing t with
  | nil => exact ⟨[], t, rfl, .nil, f⟩
  | cons c s ih =>
    cases f with
    | keep other later =>
      obtain ⟨u, u', rfl, own, own'⟩ := ih later
      exact ⟨c :: u, u', rfl, .keep other own, own'⟩
    | @fill w _ _ insert later =>
      obtain ⟨u, u', rfl, own, own'⟩ := ih later
      exact ⟨w ++ u, u', (List.append_assoc ..).symm, .fill insert own, own'⟩

theorem eq (f : Fills mark s t) (free : mark ∉ s) : t = s := by
  induction f with
  | nil => rfl
  | keep _ _ ih => rw [ih fun mem => free (List.mem_cons_of_mem _ mem)]
  | fill => exact absurd List.mem_cons_self free

/-- Filling a line in for a mark leaves the text within a line. -/
theorem inLine (f : Fills mark s t) (line : ∀ c ∈ s, c ≠ '\n') : ∀ c ∈ t, c ≠ '\n' := by
  induction f with
  | nil => exact line
  | keep _ _ ih =>
    obtain ⟨own, line⟩ := List.forall_mem_cons.1 line
    exact List.forall_mem_cons.2 ⟨own, ih line⟩
  | fill insert _ ih =>
    have later := ih (List.forall_mem_cons.1 line).2
    exact fun c hc => (List.mem_append.1 hc).elim (insert.inLine c) (later c)

/-- At its end the text has a blank exactly if it had one before. -/
theorem endsBlank_eq (f : Fills mark s t) (ink : isInk mark) : t.endsBlank = s.endsBlank := by
  obtain rfl | ⟨s, c, rfl⟩ := List.eq_nil_or_concat s
  · cases f
    rfl
  · rw [List.concat_eq_append] at f ⊢
    obtain ⟨u, u', rfl, -, last⟩ := f.exists_append
    cases last with
    | keep _ later =>
      cases later
      simp [endsBlank]
    | @fill w _ _ insert later =>
      cases later
      have own : isBlank mark = false := by simpa [isInk] using ink
      have ends := insert.ends
      rw [endsBlank, List.getLast?_eq_some_getLast insert.ne] at ends
      simpa [endsBlank, List.getLast?_eq_some_getLast insert.ne, own] using ends

theorem trimRight (f : Fills mark s t) (ink : isInk mark) :
    Fills mark s.trimRight t.trimRight := by
  obtain ⟨w, split, blank, ends⟩ := eq_append_trimRight s
  rw [split] at f
  obtain ⟨u, u', rfl, own, rest⟩ := f.exists_append
  have free : mark ∉ w := fun mem => by simp [isInk, blank mark mem] at ink
  have closes : u.endsBlank = false := by rw [own.endsBlank_eq ink, ends]
  rwa [rest.eq free, trimRight_append_blanks blank, trimRight_of_endsInk closes]

end Fills

/-! ## Samples -/

/-- However they are squeezed, the second text is filled in for the marks of the first. -/
def IsSample (mark : Char) (s t : Text) : Prop :=
  ∀ b, blankAfter b s = blankAfter b t ∧ Fills mark (squeeze b s) (squeeze b t)

theorem isSample_refl (ink : isInk mark) (free : mark ∉ t) : IsSample mark t t := by
  refine fun b => ⟨rfl, .refl fun mem => ?_⟩
  obtain rfl | mem := mem_squeeze mem
  · cases ink
  · exact free mem

theorem IsSample.append (h : IsSample mark s t) (h' : IsSample mark s' t') :
    IsSample mark (s ++ s') (t ++ t') := by
  intro b
  obtain ⟨blank, fills⟩ := h b
  obtain ⟨blank', fills'⟩ := h' (blankAfter b t)
  rw [blankAfter_append, blankAfter_append, squeeze_append, squeeze_append, blank]
  exact ⟨blank', fills.append fills'⟩

/-- The texts that stand for all texts within a line. -/
def fillings (mark : Char) : List Text :=
  [[], [' '], [mark], [' ', mark], [mark, ' '], [' ', mark, ' ']]

theorem Alike.isSample (alike : Alike s t) (ink : isInk mark) (free : mark ∉ s) :
    IsSample mark s t := by
  intro b
  have same := alike.squeeze_eq b
  have own := (isSample_refl ink free b).2
  refine ⟨by rw [← blankAfter_squeeze, same, blankAfter_squeeze], ?_⟩
  rwa [same] at own ⊢

theorem isSample_of_blanks (ink : isInk mark) (blank : ∀ c ∈ t, isBlank c) :
    IsSample mark (if t = [] then [] else [' ']) t := by
  have space : mark ≠ ' ' := by
    rintro rfl
    cases ink
  split
  · rename_i nil
    subst nil
    exact isSample_refl ink List.not_mem_nil
  · rename_i ne
    exact (Alike.of_blanks (by simp [isBlank]) blank (by simp) ne).isSample ink (by simpa using space)

/-- Blanks within the text do not matter: what is left of them is text of the same kind. -/
theorem IsInsert.squeeze (insert : t.IsInsert) (b : Bool) : (squeeze b t).IsInsert := by
  have ends : blankAfter b t = false := by rw [blankAfter_of_ne_nil insert.ne, insert.ends]
  obtain ⟨c, t, rfl⟩ := List.exists_cons_of_ne_nil insert.ne
  have opens : isBlank c = false := by simpa [startsBlank] using insert.starts
  refine ⟨by simp [Text.squeeze, opens], by simp [Text.squeeze, startsBlank, opens],
    endsBlank_squeeze ends, fun d hd => ?_⟩
  obtain rfl | mem := mem_squeeze hd
  · decide
  · exact insert.inLine d mem

theorem isSample_mark (ink : isInk mark) (insert : t.IsInsert) : IsSample mark [mark] t := by
  have own : isBlank mark = false := by simpa [isInk] using ink
  intro b
  have filled : Fills mark [mark] (squeeze b t ++ []) := .fill (insert.squeeze b) .nil
  rw [List.append_nil] at filled
  refine ⟨?_, by simpa [squeeze, own] using filled⟩
  rw [blankAfter_of_ne_nil insert.ne, insert.ends, blankAfter, blankAfter, own]

/-- Text within a line is blank, or has ink at both ends between its first blanks and its last ones. -/
theorem exists_isInsert (line : ∀ c ∈ t, c ≠ '\n') : (∀ c ∈ t, isBlank c) ∨
    ∃ left w right, t = left ++ w ++ right ∧ w.IsInsert ∧ ∀ c ∈ left ++ right, isBlank c := by
  obtain ⟨left, right, split, blank⟩ := eq_append_trim t
  by_cases nil : t.trim = []
  · rw [nil, List.append_nil] at split
    rw [split]
    exact .inl blank
  · obtain ⟨-, -, -, closes⟩ := eq_append_trimRight t.trimLeft
    refine .inr ⟨left, t.trim, right, split, ⟨nil, startsBlank_trim t, closes, fun c hc => line c ?_⟩,
      blank⟩
    rw [split]
    simp [hc]

theorem exists_isSample (ink : isInk mark) (line : ∀ c ∈ t, c ≠ '\n') :
    ∃ s ∈ fillings mark, IsSample mark s t := by
  obtain blank | ⟨left, w, right, rfl, insert, blank⟩ := exists_isInsert line
  · refine ⟨_, ?_, isSample_of_blanks ink blank⟩
    split <;> simp [fillings]
  · rw [List.forall_mem_append] at blank
    refine ⟨_, ?_, ((isSample_of_blanks ink blank.1).append (isSample_mark ink insert)).append
      (isSample_of_blanks ink blank.2)⟩
    split <;> split <;> simp [fillings]

/-- The text as it stands in a sentence, with one space for each run of blanks; there is none in front
if a blank is there already, and none at the end of the sentence. -/
def spaced (blank last : Bool) (t : Text) : Text :=
  if last then (squeeze blank t).trimRight else squeeze blank t

theorem IsSample.spaced (h : IsSample mark s t) (ink : isInk mark) (blank last : Bool) :
    Fills mark (s.spaced blank last) (t.spaced blank last) := by
  have fills := (h blank).2
  rw [Text.spaced, Text.spaced]
  split
  · exact fills.trimRight ink
  · exact fills

end StepMatch.Text
