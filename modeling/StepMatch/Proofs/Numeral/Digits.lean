import Mathlib.Data.Nat.Digits.Defs
import Mathlib.Tactic.Ring
import StepMatch.Numeral.Integer
import StepMatch.Value.Calendar

/-!
# Decimal digits

What rows of ASCII digits are worth, and how whole numbers of a range are read from them. The digits of
a number are read as that number again, with any number of zeros in front. A number is in the range as
long as each number on the way to it is, so it does not matter that the range is checked at every digit.
-/

namespace StepMatch

variable {t ds s : Text} {n : Int} {r : IntegerRange} {negative : Bool}

theorem digitsValue_eq_ofDigitChars (t : Text) : digitsValue t = Nat.ofDigitChars 10 t 0 := by
  simp only [digitsValue, digitValue, Nat.ofDigitChars_eq_foldl, Nat.mul_comm 10]
  rfl

theorem digitsValue_append (t u : Text) :
    digitsValue (t ++ u) = digitsValue t * 10 ^ u.length + digitsValue u := by
  rw [digitsValue_eq_ofDigitChars, digitsValue_eq_ofDigitChars, digitsValue_eq_ofDigitChars,
    Nat.ofDigitChars_append, Nat.ofDigitChars_eq_ofDigitChars_zero (l := u), Nat.mul_comm]

theorem digitsValue_cons (c : Char) (t : Text) :
    digitsValue (c :: t) = digitValue c * 10 ^ t.length + digitsValue t := by
  rw [← List.singleton_append, digitsValue_append]
  simp [digitsValue]

theorem digitsValue_toDigits (n : Nat) : digitsValue (Nat.toDigits 10 n) = n := by
  rw [digitsValue_eq_ofDigitChars, Nat.ofDigitChars_ten_toDigits]

theorem isAsciiDigit_eq_isDigit (c : Char) : isAsciiDigit c = c.isDigit := by
  rw [isAsciiDigit, Char.isDigit, Bool.eq_iff_iff]
  simp [UInt32.le_iff_toNat_le]

theorem isAsciiDigit_of_mem_toDigits {n : Nat} : ∀ c ∈ Nat.toDigits 10 n, isAsciiDigit c := fun c hc => by
  rw [isAsciiDigit_eq_isDigit]
  exact Nat.isDigit_of_mem_toDigits (by decide) (by decide) hc

/-- Zeros in front count for nothing. -/
theorem digitsValue_replicate_append (k : Nat) (t : Text) :
    digitsValue (List.replicate k '0' ++ t) = digitsValue t := by
  induction k with
  | zero => rfl
  | succ k ih => rw [List.replicate_succ, List.cons_append, digitsValue_cons, ih]; simp [digitValue]

theorem isDigit_of_isAsciiDigit {c : Char} (h : isAsciiDigit c) : isDigit c := by
  have small : c.toNat < 0x80 := by
    simp only [isAsciiDigit, Bool.and_eq_true, decide_eq_true_eq] at h
    omega
  rwa [isDigit, if_pos small]

section Padded

variable {width k : Nat}

theorem toList_padded (width k : Nat) : (padded width k).toList =
    List.replicate (width - (Nat.toDigits 10 k).length) '0' ++ Nat.toDigits 10 k := by
  simp [padded]

theorem digitsValue_padded (width k : Nat) : digitsValue (padded width k).toList = k := by
  rw [toList_padded, digitsValue_replicate_append, digitsValue_toDigits]

theorem isAsciiDigit_of_mem_padded : ∀ c ∈ (padded width k).toList, isAsciiDigit c := by
  intro c hc
  rw [toList_padded] at hc
  obtain zero | own := List.mem_append.1 hc
  · rw [List.eq_of_mem_replicate zero]
    rfl
  · exact isAsciiDigit_of_mem_toDigits c own

theorem length_padded (pos : 0 < width) (lt : k < 10 ^ width) : (padded width k).toList.length = width := by
  have few := Nat.toDigits_length 10 k width pos lt
  rw [toList_padded, List.length_append, List.length_replicate]
  omega

end Padded

theorem readNatural?_eq_some_iff {k : Nat} :
    readNatural? t = some k ↔ t ≠ [] ∧ (∀ c ∈ t, isAsciiDigit c) ∧ digitsValue t = k := by
  rw [readNatural?]
  split
  · rename_i h
    simp only [Bool.or_eq_true, List.isEmpty_iff, Bool.not_eq_true', List.all_eq_false] at h
    refine iff_of_false nofun fun ⟨ne, digits, _⟩ => ?_
    obtain rfl | ⟨c, hc, other⟩ := h
    · exact ne rfl
    · exact other (digits c hc)
  · rename_i h
    simp only [Bool.or_eq_true, List.isEmpty_iff, Bool.not_eq_true', List.all_eq_false, not_or, not_exists,
      not_and, not_not] at h
    rw [Option.some.injEq]
    exact ⟨fun e => ⟨h.1, h.2, e⟩, fun ⟨_, _, e⟩ => e⟩

/-- A number with a sign. -/
def signed (negative : Bool) (k : Nat) : Int := if negative then -(k : Int) else k

/-- What may stand in front of the digits of a number; it says whether the number is negative. -/
inductive Sign : Bool → Text → Prop
  | none : Sign false []
  | plus : Sign false ['+']
  | minus : Sign true ['-']

namespace IntegerRange

/-- In a range around zero, what lies between zero and a number of the range is in it too. -/
theorem contains_of_le (bounds : r.low ≤ 0 ∧ 0 ≤ r.high) {j k : Nat} (le : j ≤ k)
    (h : r.contains (signed negative k)) : r.contains (signed negative j) := by
  cases negative <;>
    · simp only [contains, signed, if_true, Bool.false_eq_true, if_false, Bool.and_eq_true,
        decide_eq_true_eq] at h ⊢
      omega

/-- Digits are read as what they are worth behind a number, if that is in the range. -/
theorem readDigits_eq_ok_iff (bounds : r.low ≤ 0 ∧ 0 ≤ r.high) (t : Text) {k : Nat}
    (inside : r.contains (signed negative k)) :
    r.readDigits negative (signed negative k) t = .ok n ↔ (∀ c ∈ t, isAsciiDigit c) ∧
      n = signed negative (k * 10 ^ t.length + digitsValue t) ∧ r.contains n := by
  induction t generalizing k with
  | nil =>
    simp only [readDigits, Except.ok.injEq, List.not_mem_nil, false_imp_iff, implies_true, true_and,
      List.length_nil, pow_zero, mul_one]
    constructor
    · rintro rfl
      exact ⟨rfl, inside⟩
    · rintro ⟨rfl, -⟩
      rfl
  | cons c t ih =>
    have next : (if negative then signed negative k * 10 - (digitValue c : Int)
        else signed negative k * 10 + digitValue c) = signed negative (k * 10 + digitValue c) := by
      cases negative <;> simp only [signed, if_true, Bool.false_eq_true, if_false] <;> push_cast <;> ring
    have worth : (k * 10 + digitValue c) * 10 ^ t.length + digitsValue t =
        k * 10 ^ (c :: t).length + digitsValue (c :: t) := by
      rw [digitsValue_cons, List.length_cons]
      ring
    rw [readDigits, List.forall_mem_cons]
    split
    · rename_i digit
      simp only [next, digit, true_and]
      by_cases fits : r.contains (signed negative (k * 10 + digitValue c))
      · have within : r.low ≤ signed negative (k * 10 + digitValue c) ∧
            signed negative (k * 10 + digitValue c) ≤ r.high := by
          simpa [contains] using fits
        rw [if_neg (by omega), if_neg (by omega), ih fits, worth]
      · -- A number that has left the range does not come back.
        have left : ¬ r.contains (signed negative ((k * 10 + digitValue c) * 10 ^ t.length + digitsValue t)) :=
          fun h => fits (contains_of_le bounds (Nat.le_add_right_of_le
            (Nat.le_mul_of_pos_right _ (Nat.pow_pos (Nat.succ_pos 9)))) h)
        have outside : signed negative (k * 10 + digitValue c) < r.low ∨
            r.high < signed negative (k * 10 + digitValue c) := by
          simp only [contains, Bool.and_eq_true, decide_eq_true_eq] at fits
          omega
        refine iff_of_false ?_ ?_
        · split
          · nofun
          · rw [if_pos (by omega)]
            nofun
        · rintro ⟨-, rfl, h⟩
          rw [← worth] at h
          exact left h
    · rename_i other
      exact iff_of_false nofun fun ⟨⟨digit, _⟩, _⟩ => other digit

/-- What starts with a digit is read without a sign. -/
theorem read_of_isDigit {c : Char} (digit : isDigit c) :
    r.read (c :: t) = r.readDigits false 0 (c :: t) := by
  have plus : c ≠ '+' := by
    rintro rfl
    exact absurd digit (by decide)
  have minus : c ≠ '-' := by
    rintro rfl
    exact absurd digit (by decide)
  rw [read.eq_def]
  split <;> simp_all

/-- Digits behind a sign are read as the number that they write, if they are ASCII and the number is in
the range. -/
theorem read_eq_ok_iff (bounds : r.low ≤ 0 ∧ 0 ≤ r.high) (sign : Sign negative s) (ne : ds ≠ [])
    (digits : ∀ c ∈ ds, isDigit c) : r.read (s ++ ds) = .ok n ↔
      (∀ c ∈ ds, isAsciiDigit c) ∧ n = signed negative (digitsValue ds) ∧ r.contains n := by
  have zero : signed negative 0 = 0 := by cases negative <;> rfl
  have inside : r.contains (signed negative 0) := by
    rw [zero]
    simpa [contains] using bounds
  have run : r.read (s ++ ds) = r.readDigits negative (signed negative 0) ds := by
    obtain ⟨c, ds, rfl⟩ := List.exists_cons_of_ne_nil ne
    rw [zero]
    cases sign with
    | none => exact read_of_isDigit (digits c List.mem_cons_self)
    | plus => rfl
    | minus => rfl
  rw [run, readDigits_eq_ok_iff bounds ds inside, Nat.zero_mul, Nat.zero_add]

end IntegerRange
end StepMatch
