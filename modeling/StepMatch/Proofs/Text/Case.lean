import Mathlib.Data.Bool.AllAny
import StepMatch.Text.Case
import StepMatch.Text.Digit

/-!
# Characters that differ in case

Characters beyond Latin-1, but for a few, have no second case. What holds of all characters is therefore
checked for those up to there and shown in general for those without a second case.
-/

namespace StepMatch

/-- A character without a second case. -/
structure IsCaseless (c : Char) : Prop where
  beyond : 0x180 ≤ c.toNat
  lower : toLowerCase c = c
  fold : foldCase c = c
  alone : caseVariants c = [c]

/-- The characters beyond Latin-1 that fold to one of its letters. -/
def foldingChars : List Char := ['\u1e9e', '\u212a', '\u212b']

theorem isCaseless_of_beyond {c : Char} (beyond : 0x180 ≤ c.toNat) (other : c ∉ foldingChars) : IsCaseless c := by
  have ne (n : Nat) (h : n.isValidChar) (mem : Char.ofNat n ∈ foldingChars) : c.toNat ≠ n := by
    rintro rfl
    rw [Char.ofNat_toNat] at mem
    exact other mem
  have sharp : c.toNat ≠ 0x1E9E := ne _ (by decide) (by decide)
  have kelvin : c.toNat ≠ 0x212A := ne _ (by decide) (by decide)
  have ring : c.toNat ≠ 0x212B := ne _ (by decide) (by decide)
  have lower : toLowerCase c = c := by
    rw [toLowerCase]
    simp [sharp, kelvin, ring, show c.toNat ≠ 0x178 by omega]
    omega
  have fold : foldCase c = c := by
    rw [foldCase, lower, if_neg (by simp; omega)]
  have single : hasUpperCase c = false := by
    simp [hasUpperCase]
    omega
  refine ⟨beyond, lower, fold, ?_⟩
  simp only [caseVariants, fold, single, Bool.false_eq_true, if_false]
  split <;> first | rfl | omega

/-- All characters that may have a second case. -/
def casedChars : List Char := (List.range 0x180).map Char.ofNat ++ foldingChars

/-- What holds of the characters with a second case and of those without holds of all. -/
theorem forall_char {P : Char → Prop} [DecidablePred P] (cased : (casedChars.all fun c => decide (P c)) = true)
    (caseless : ∀ c, IsCaseless c → P c) (c : Char) : P c := by
  have each := List.all_iff_forall_prop.1 cased
  by_cases beyond : 0x180 ≤ c.toNat
  · by_cases mem : c ∈ foldingChars
    · exact each c (List.mem_append_right _ mem)
    · exact caseless c (isCaseless_of_beyond beyond mem)
  · refine each c (List.mem_append_left _ (List.mem_map.2 ⟨c.toNat, ?_, Char.ofNat_toNat c⟩))
    exact List.mem_range.2 (by omega)

theorem foldCase_of_mem_caseVariants (c : Char) : ∀ v ∈ caseVariants c, foldCase v = foldCase c :=
  List.all_iff_forall_prop.1 (forall_char
    (P := fun c => ((caseVariants c).all fun v => decide (foldCase v = foldCase c)) = true) (by decide +kernel)
    (fun c h => by simp [h.alone]) c)

theorem mem_caseVariants_self (c : Char) : c ∈ caseVariants c :=
  forall_char (P := fun c => c ∈ caseVariants c) (by decide +kernel)
    (fun c h => h.alone ▸ List.mem_singleton_self c) c

section AsciiCase

theorem IsCaseless.toLower {c : Char} (h : IsCaseless c) : c.toLower = c := by
  have beyond : 0x180 ≤ c.val.toNat := h.beyond
  refine dif_neg fun upper => ?_
  have le : c.val.toNat ≤ 90 := UInt32.le_iff_toNat_le.1 upper.2
  omega

theorem IsCaseless.toUpper {c : Char} (h : IsCaseless c) : c.toUpper = c := by
  have beyond : 0x180 ≤ c.val.toNat := h.beyond
  refine dif_neg fun lower => ?_
  have le : c.val.toNat ≤ 122 := UInt32.le_iff_toNat_le.1 lower.2
  omega

/-- A character as it is, or in the other case if it is a letter of ASCII. -/
def IsAsciiCase (c v : Char) : Prop := v = c ∨ v = c.toLower ∨ v = c.toUpper

instance (c v : Char) : Decidable (IsAsciiCase c v) := inferInstanceAs (Decidable (_ ∨ _))

/-- The case of ASCII letters is one that regexes ignore, and that is lost in lower case. -/
theorem IsAsciiCase.same {c v : Char} (h : IsAsciiCase c v) :
    c ∈ caseVariants v ∧ toLowerCase v = toLowerCase c := by
  have lower := forall_char (P := fun c => c ∈ caseVariants c.toLower ∧ toLowerCase c.toLower = toLowerCase c)
    (by decide +kernel) (fun c h => by
      rw [h.toLower]
      exact ⟨mem_caseVariants_self c, rfl⟩) c
  have upper := forall_char (P := fun c => c ∈ caseVariants c.toUpper ∧ toLowerCase c.toUpper = toLowerCase c)
    (by decide +kernel) (fun c h => by
      rw [h.toUpper]
      exact ⟨mem_caseVariants_self c, rfl⟩) c
  obtain rfl | rfl | rfl := h
  · exact ⟨mem_caseVariants_self _, rfl⟩
  · exact lower
  · exact upper

end AsciiCase

/-- Digits and blanks have no second case. -/
theorem foldCase_of_isDigit_or_isBlank (c : Char) (h : isDigit c ∨ isBlank c) : foldCase c = c :=
  forall_char (P := fun c => isDigit c ∨ isBlank c → foldCase c = c) (by decide +kernel)
    (fun _ h _ => h.fold) c h

end StepMatch
