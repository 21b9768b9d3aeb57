import StepMatch.Proofs.DataType.Number

/-!
# What a conversion is given

A type of numbers hands a number on in plain form: its sign and its digits, with a point in front of the
fraction. Marks between groups never get there, and neither does a mark of the locale for the fraction. The
digits are those of the sentence, of any script; they are ASCII digits exactly if those of the sentence are.
-/

namespace StepMatch

open Regex (Writes Dialect)

variable {p q : Char → Bool} {decimals : Bool} {t : Text} {c : Char}

/-- An optional sign and digits, and perhaps a point with more digits if there may be a fraction. -/
inductive PlainNumber (p : Char → Bool) (decimals : Bool) : Text → Prop
  | whole {negative : Bool} {s ds : Text} (sign : Sign negative s) (ne : ds ≠ []) (digits : ∀ c ∈ ds, p c) :
    PlainNumber p decimals (s ++ ds)
  | fraction {negative : Bool} {s ds fs : Text} (allowed : decimals = true) (sign : Sign negative s)
    (ne : ds ≠ []) (digits : ∀ c ∈ ds, p c) (ne' : fs ≠ []) (digits' : ∀ c ∈ fs, p c) :
    PlainNumber p decimals (s ++ ds ++ '.' :: fs)

namespace PlainNumber

theorem isDigit_of_mem_sign {negative : Bool} {s : Text} (sign : Sign negative s) : ∀ c ∈ s, isDigit c = false := by
  cases sign with
  | none => simp
  | plus | minus =>
    rw [List.forall_mem_singleton]
    decide

/-- The digits may be of any kind that they are of. -/
theorem of_digits (h : PlainNumber p decimals t) (all : ∀ c ∈ t, p c → q c) : PlainNumber q decimals t := by
  cases h with
  | whole sign ne digits =>
    exact .whole sign ne fun c hc => all c (by simp [hc]) (digits c hc)
  | fraction allowed sign ne digits ne' digits' =>
    exact .fraction allowed sign ne (fun c hc => all c (by simp [hc]) (digits c hc)) ne'
      fun c hc => all c (by simp [hc]) (digits' c hc)

/-- Only what stands for a digit is one. -/
theorem of_mem (h : PlainNumber p decimals t) (hc : c ∈ t) (digit : isDigit c) : p c := by
  have other {negative : Bool} {s : Text} (sign : Sign negative s) : c ∉ s := fun hs => by
    rw [isDigit_of_mem_sign sign c hs] at digit
    cases digit
  cases h with
  | whole sign ne digits => exact digits c ((List.mem_append.1 hc).resolve_left (other sign))
  | fraction allowed sign ne digits ne' digits' =>
    obtain hc | hc := List.mem_append.1 hc
    · exact digits c ((List.mem_append.1 hc).resolve_left (other sign))
    · obtain rfl | hc := List.mem_cons.1 hc
      · cases digit
      · exact digits' c hc

theorem isAsciiDigit_iff (h : PlainNumber isDigit decimals t) :
    PlainNumber isAsciiDigit decimals t ↔ ∀ c ∈ t, isDigit c → isAsciiDigit c :=
  ⟨fun h' _ hc digit => h'.of_mem hc digit, h.of_digits⟩

end PlainNumber

namespace NumberMarks

variable {m : NumberMarks}

/-- Plain form has the digits of the text, in order. -/
theorem filter_normalise (apart : m.AreApart) (t : Text) : (m.normalise t).filter isDigit = t.filter isDigit := by
  have grouping := (apart m.grouping (by simp)).1
  have decimal := (apart m.decimal (by simp)).1
  have point : isDigit '.' = false := by decide
  induction t with
  | nil => rfl
  | cons c t ih =>
    rw [normalise] at ih ⊢
    by_cases mark : c = m.grouping
    · rw [List.filter_cons_of_neg (by simp [mark]), List.filter_cons_of_neg (by simp [mark, grouping]), ih]
    · rw [List.filter_cons_of_pos (by simpa using mark), List.map_cons]
      by_cases mark' : c = m.decimal
      · rw [if_pos (by simp [mark']), List.filter_cons_of_neg (by simp [point]),
          List.filter_cons_of_neg (by simp [mark', decimal]), ih]
      · rw [if_neg (by simpa using mark'), List.filter_cons, List.filter_cons, ih]

theorem normalise_of_digits (apart : m.AreApart) (ne : t ≠ []) (digits : ∀ c ∈ t, isDigit c) :
    m.normalise t = t :=
  normalise_append apart .none (.plain ne digits)

/-- What is accepted is a number in plain form. -/
theorem isPlainNumber_of_accepts (three : m.groupSize = 3) (apart : m.AreApart)
    (distinct : m.decimal ≠ m.grouping) (h : m.accepts decimals t) :
    PlainNumber isDigit decimals (m.normalise t) := by
  have append (u v : Text) : m.normalise (u ++ v) = m.normalise u ++ m.normalise v := by
    rw [normalise, List.filter_append, List.map_append, normalise, normalise]
  have whole {w : Text} (hw : w ∈ m.wholeLanguage) : ∃ negative s ds, Sign negative s ∧ ds ≠ [] ∧
      (∀ c ∈ ds, isDigit c) ∧ m.normalise w = s ++ ds := by
    obtain ⟨negative, s, body, ds, sign, grouped, rfl⟩ := hw
    exact ⟨negative, s, ds, sign, grouped.digits_ne_nil, grouped.digits,
      normalise_append apart sign grouped⟩
  rw [accepts_iff_mem three, numberLanguage] at h
  split at h
  · rename_i allowed
    obtain ⟨w, hw, v, hv, rfl⟩ := Language.mem_mul.1 h
    obtain ⟨negative, s, ds, sign, ne, digits, plain⟩ := whole hw
    rw [append, plain]
    obtain rfl | ⟨_, rfl, fs, hf, rfl⟩ := hv
    · rw [show m.normalise [] = [] from rfl, List.append_nil]
      exact .whole sign ne digits
    · obtain ⟨pos, digits'⟩ := Regex.mem_repeats_ofSet.1 hf
      have ne' := List.length_pos_iff.1 pos
      have point : m.normalise [m.decimal] = ['.'] := by simp [normalise, distinct]
      rw [append, point, normalise_of_digits apart ne' digits']
      exact .fraction allowed sign ne digits ne' digits'
  · obtain ⟨negative, s, ds, sign, ne, digits, plain⟩ := whole h
    rw [plain]
    exact .whole sign ne digits

end NumberMarks

theorem Locale.decimal_ne_grouping (l : Locale) : l.numberMarks.decimal ≠ l.numberMarks.grouping := by
  rw [numberMarks]
  split <;> decide

theorem filter_isDigit_trim (t : Text) : t.trim.filter isDigit = t.filter isDigit := by
  obtain ⟨left, right, e, blank⟩ := Text.eq_append_trim t
  have none : ∀ c ∈ left ++ right, ¬ isDigit c := fun c hc digit => by
    have ink := isBlank_eq_false_of_isDigit digit
    rw [blank c hc] at ink
    cases ink
  obtain ⟨none, none'⟩ := List.forall_mem_append.1 none
  conv_rhs => rw [e]
  rw [List.filter_append, List.filter_append, List.filter_eq_nil_iff.2 none, List.filter_eq_nil_iff.2 none',
    List.nil_append, List.append_nil]

namespace DataType

variable {l : Locale} {plain : Text}

/-- Reading the text in a type of numbers calls the conversion with `plain`: whatever the conversion, the
outcome is what it makes of that. -/
def Passes (decimals : Bool) (l : Locale) (t plain : Text) : Prop :=
  ∀ name kind convert, (number name kind decimals convert).parse l t =
    (convert plain).mapError fun reason => ⟨name, l, t, [l.numberMarks.hint decimals], reason⟩

theorem passes_iff : Passes decimals l t plain ↔ l.numberMarks.plainForm? decimals t = some plain := by
  constructor
  · intro passes
    have text := passes "" .text fun plain => .ok (.text plain)
    rw [parse, number] at text
    dsimp only at text
    cases found : l.numberMarks.plainForm? decimals t with
    | none =>
      rw [found] at text
      cases text
    | some plain' =>
      rw [found] at text
      cases text
      rfl
  · intro found name kind convert
    rw [parse, number]
    dsimp only
    rw [found]

/-- Types of numbers give conversions nothing but plain numbers. -/
structure PassesPlain (decimals : Bool) (l : Locale) : Prop where
  /-- Each text is given to the conversion, or else refused without it. -/
  passes_or_refuses (t : Text) : (∃ plain, Passes decimals l t plain) ∨
    ∀ name kind convert, (number name kind decimals convert).parse l t =
      .error ⟨name, l, t, [l.numberMarks.hint decimals], "not a number in this locale's format"⟩
  /-- What is given is an optional sign and digits, and perhaps a point with more digits if there are
  decimals. -/
  plain (t plain : Text) : Passes decimals l t plain → PlainNumber isDigit decimals plain
  /-- The digits are those of the text, in order. -/
  digits (t plain : Text) : Passes decimals l t plain → plain.filter isDigit = t.filter isDigit
  /-- They are ASCII digits exactly if those of the text are. -/
  ascii_iff (t plain : Text) : Passes decimals l t plain →
    (PlainNumber isAsciiDigit decimals plain ↔ ∀ c ∈ t, isDigit c → isAsciiDigit c)

/-- In every locale, with decimals or without, conversions are given plain numbers only, in the digits of
the text. -/
theorem passesPlain (decimals : Bool) (l : Locale) : PassesPlain decimals l := by
  have plain (t plain : Text) (h : Passes decimals l t plain) : PlainNumber isDigit decimals plain ∧
      plain.filter isDigit = t.filter isDigit := by
    rw [passes_iff, NumberMarks.plainForm?] at h
    split at h
    · rename_i accepted
      cases h
      have apart := l.areApart_numberMarks
      exact ⟨NumberMarks.isPlainNumber_of_accepts l.groupSize_numberMarks apart l.decimal_ne_grouping
        accepted, by rw [NumberMarks.filter_normalise apart, filter_isDigit_trim]⟩
    · cases h
  refine ⟨fun t => ?_, fun t u h => (plain t u h).1, fun t u h => (plain t u h).2, fun t u h => ?_⟩
  · cases found : l.numberMarks.plainForm? decimals t with
    | none =>
      refine .inr fun name kind convert => ?_
      rw [parse, number]
      dsimp only
      rw [found]
      rfl
    | some plain => exact .inl ⟨plain, passes_iff.2 found⟩
  · obtain ⟨shape, same⟩ := plain t u h
    have digits (w : Text) : (∀ c ∈ w, isDigit c → isAsciiDigit c) ↔
        ∀ c ∈ w.filter isDigit, isAsciiDigit c := by
      simp only [List.mem_filter, and_imp]
    rw [shape.isAsciiDigit_iff, digits, digits, same]

/-- Digits of another script reach the conversion as they are. -/
theorem passes_arabicDigit : Passes false .default ['\u0663'] ['\u0663'] ∧
    ¬ PlainNumber isAsciiDigit false ['\u0663'] := by
  refine ⟨passes_iff.2 (by decide +kernel), fun plain => ?_⟩
  have ascii := plain.of_mem (List.mem_singleton_self _) (by decide)
  exact absurd ascii (by decide)

end DataType
end StepMatch
