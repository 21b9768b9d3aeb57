import StepMatch.Proofs.DataType.Runs
import StepMatch.Proofs.Numeral.Digits
import StepMatch.Value.Iso

/-!
# Dates and times in ISO form

What is written in ISO form, and that the readers read this and nothing else. A time without seconds is read
as if zero seconds stood behind it.
-/

namespace StepMatch

variable {t u w : Text} {c : Char} {n k : Nat}

/-- A number in ASCII digits, so many of them. -/
structure WritesNumber (width : Nat) (w : Text) (k : Nat) : Prop where
  length : w.length = width
  digits : ∀ c ∈ w, isAsciiDigit c
  value : digitsValue w = k

theorem WritesNumber.readNatural? (h : WritesNumber n w k) (pos : 0 < n) : readNatural? w = some k :=
  readNatural?_eq_some_iff.2 ⟨List.ne_nil_of_length_pos (h.length ▸ pos), h.digits, h.value⟩

theorem writesNumber_padded {width : Nat} (pos : 0 < width) (lt : k < 10 ^ width) :
    WritesNumber width (padded width k).toList k :=
  ⟨length_padded pos lt, isAsciiDigit_of_mem_padded, digitsValue_padded width k⟩

theorem takeDigits?_append (h : WritesNumber n w k) (u : Text) : takeDigits? n (w ++ u) = some (k, u) := by
  obtain ⟨rfl, digits, rfl⟩ := h
  rw [takeDigits?, List.take_left', List.drop_left', if_pos]
  · simpa using digits
  · rfl
  · rfl

theorem exists_writesNumber (h : takeDigits? n t = some (k, u)) : ∃ w, WritesNumber n w k ∧ t = w ++ u := by
  rw [takeDigits?] at h
  split at h
  · rename_i ok
    cases h
    simp only [Bool.and_eq_true, beq_iff_eq, List.all_eq_true] at ok
    exact ⟨t.take n, ⟨ok.1, ok.2, rfl⟩, (List.take_append_drop n t).symm⟩
  · cases h

theorem skip?_eq_some_iff : skip? c t = some u ↔ t = c :: u := by
  cases t with
  | nil => simp [skip?]
  | cons d t =>
    rw [skip?]
    split
    · rename_i same
      rw [beq_iff_eq] at same
      simp [same]
    · rename_i other
      refine iff_of_false nofun fun e => ?_
      exact other (by simp [(List.cons.inj e).1])

namespace Date

theorem month_range (d : Date) : 1 ≤ d.month ∧ d.month ≤ 12 := by
  obtain ⟨low, high⟩ := d.day_range
  have some : daysInMonth d.year d.month ≠ 0 := by omega
  by_contra out
  refine some ?_
  rw [daysInMonth.eq_def]
  split <;> first | rfl | omega

theorem day_lt (d : Date) : d.day < 100 := by
  have high := d.day_range.2
  have few : daysInMonth d.year d.month ≤ 31 := by
    rw [daysInMonth.eq_def]
    split <;> first | omega | (split <;> omega)
  omega

/-- The text writes the date in ISO form: a year of four digits with an optional sign, a month and a day of
two digits, joined by dashes. -/
inductive WritesIso (d : Date) : Text → Prop
  | mk {negative : Bool} {s year month day : Text} {k : Nat} (sign : Sign negative s)
      (hy : WritesNumber 4 year k) (own : d.year = signed negative k) (hm : WritesNumber 2 month d.month)
      (hd : WritesNumber 2 day d.day) : WritesIso d (s ++ year ++ '-' :: month ++ '-' :: day)

theorem takeSign_append {negative : Bool} {s : Text} (sign : Sign negative s) (digit : isAsciiDigit c) (t : Text) :
    takeSign (s ++ c :: t) = (negative, c :: t) := by
  cases sign with
  | none =>
    rw [List.nil_append, takeSign.eq_def]
    split
    · rename_i same
      rw [(List.cons.inj same).1] at digit
      exact absurd digit (by decide)
    · rename_i same
      rw [(List.cons.inj same).1] at digit
      exact absurd digit (by decide)
    · rfl
  | plus => rfl
  | minus => rfl

theorem exists_sign (t : Text) : ∃ s, Sign (takeSign t).1 s ∧ t = s ++ (takeSign t).2 := by
  rw [takeSign.eq_def]
  split
  · exact ⟨_, .minus, rfl⟩
  · exact ⟨_, .plus, rfl⟩
  · exact ⟨_, .none, rfl⟩

/-- A date is read from the texts that write it in ISO form. -/
theorem readIso?_eq_some_iff {d : Date} : readIso? t = some d ↔ d.WritesIso t := by
  constructor
  · intro h
    simp only [readIso?, Option.bind_eq_bind, Option.bind_eq_some_iff, Prod.exists, skip?_eq_some_iff] at h
    obtain ⟨k, _, hy, _, rfl, m, _, hm, _, rfl, dd, e, hd, h⟩ := h
    obtain ⟨s, sign, whole⟩ := exists_sign t
    obtain ⟨year, wy, front⟩ := exists_writesNumber hy
    obtain ⟨month, wm, rfl⟩ := exists_writesNumber hm
    obtain ⟨day, wd, rfl⟩ := exists_writesNumber hd
    split at h
    · rename_i empty
      obtain rfl := List.isEmpty_iff.1 empty
      obtain ⟨own, rfl, rfl⟩ := eq_of_of?_eq_some h
      rw [whole, front]
      simpa using WritesIso.mk sign wy (by simpa [signed] using own) wm wd
    · cases h
  · rintro @⟨negative, s, year, month, day, k, sign, hy, own, hm, hd⟩
    obtain ⟨c, cs, rfl⟩ := List.exists_cons_of_ne_nil (List.ne_nil_of_length_pos (l := year) (by rw [hy.length]; decide))
    have opens : takeSign (s ++ (c :: cs ++ '-' :: (month ++ '-' :: day))) =
        (negative, c :: cs ++ '-' :: (month ++ '-' :: day)) :=
      takeSign_append sign (hy.digits c List.mem_cons_self) _
    have skip (c : Char) (u : Text) : skip? c (c :: u) = some u := skip?_eq_some_iff.2 rfl
    have last : takeDigits? 2 day = some (d.day, []) := by simpa using takeDigits?_append hd []
    have whole : s ++ c :: cs ++ '-' :: month ++ '-' :: day = s ++ (c :: cs ++ '-' :: (month ++ '-' :: day)) := by
      simp
    rw [whole, readIso?, opens]
    simp only [Option.bind_eq_bind, takeDigits?_append hy, takeDigits?_append hm, skip, last, Option.bind_some,
      List.isEmpty_nil, if_true]
    rw [← of?_parts d, own]
    rfl

end Date

namespace Time

/-- The text writes the time in ISO form: hour and minute, perhaps the second, and then perhaps a decimal
fraction of it to so many places, of which nine count. -/
inductive WritesIso (v : Time) : Nat → Text → Prop
  | minutes {hour minute : Text} (hh : WritesNumber 2 hour v.hour) (hm : WritesNumber 2 minute v.minute)
      (second : v.second = 0) (nano : v.nano = 0) : WritesIso v 0 (hour ++ ':' :: minute)
  | seconds {hour minute second : Text} (hh : WritesNumber 2 hour v.hour) (hm : WritesNumber 2 minute v.minute)
      (hs : WritesNumber 2 second v.second) (nano : v.nano = 0) :
      WritesIso v 0 (hour ++ ':' :: minute ++ ':' :: second)
  | fraction {hour minute second f : Text} (hh : WritesNumber 2 hour v.hour)
      (hm : WritesNumber 2 minute v.minute) (hs : WritesNumber 2 second v.second) (some : f ≠ [])
      (digits : ∀ c ∈ f, isAsciiDigit c)
      (nano : v.nano * 10 ^ (f.take 9).length = digitsValue (f.take 9) * 10 ^ 9) :
      WritesIso v f.length (hour ++ ':' :: minute ++ ':' :: second ++ '.' :: f)

theorem nanosOf_eq_iff {f : Text} : nanosOf f = n ↔ n * 10 ^ (f.take 9).length = digitsValue (f.take 9) * 10 ^ 9 := by
  have few : (f.take 9).length ≤ 9 := by simp
  have nine : (10 : Nat) ^ 9 = 10 ^ (9 - (f.take 9).length) * 10 ^ (f.take 9).length := by
    rw [← Nat.pow_add, Nat.sub_add_cancel few]
  rw [nine, ← Nat.mul_assoc, Nat.mul_right_cancel_iff (Nat.pow_pos (by decide)), nanosOf, eq_comm]
  rfl

variable {v : Time}

/-- What is read with seconds. -/
theorem readIsoSeconds?_eq_some_iff : readIsoSeconds? t = some v ↔ ∃ hour minute second behind,
    WritesNumber 2 hour v.hour ∧ WritesNumber 2 minute v.minute ∧ WritesNumber 2 second v.second ∧
    (behind = [] ∧ v.nano = 0 ∨ ∃ f, behind = '.' :: f ∧ f ≠ [] ∧ (∀ c ∈ f, isAsciiDigit c) ∧
      v.nano * 10 ^ (f.take 9).length = digitsValue (f.take 9) * 10 ^ 9) ∧
    t = hour ++ ':' :: (minute ++ ':' :: (second ++ behind)) := by
  constructor
  · intro h
    simp only [readIsoSeconds?, takeIso?, Option.bind_eq_bind, Option.bind_eq_some_iff, Prod.exists,
      skip?_eq_some_iff, Option.some.injEq, Prod.mk.injEq] at h
    obtain ⟨h₁, m₁, s₁, behind, ⟨_, _, hh, _, rfl, _, _, hm, _, rfl, _, _, hs, ⟨rfl, rfl, rfl⟩, rfl⟩, h⟩ := h
    obtain ⟨hour, wh, rfl⟩ := exists_writesNumber hh
    obtain ⟨minute, wm, rfl⟩ := exists_writesNumber hm
    obtain ⟨second, ws, rfl⟩ := exists_writesNumber hs
    split at h
    · obtain ⟨rfl, rfl, rfl, nano⟩ := eq_of_of?_eq_some h
      exact ⟨hour, minute, second, [], wh, wm, ws, .inl ⟨rfl, nano⟩, rfl⟩
    · rename_i f
      split at h
      · rename_i ok
        simp only [Bool.and_eq_true, Bool.not_eq_true', List.isEmpty_eq_false_iff, List.all_eq_true] at ok
        obtain ⟨rfl, rfl, rfl, nano⟩ := eq_of_of?_eq_some h
        exact ⟨hour, minute, second, '.' :: f, wh, wm, ws,
          .inr ⟨f, rfl, ok.1, ok.2, nanosOf_eq_iff.1 nano.symm⟩, rfl⟩
      · cases h
    · cases h
  · rintro ⟨hour, minute, second, behind, hh, hm, hs, rest, rfl⟩
    have skip (c : Char) (u : Text) : skip? c (c :: u) = some u := skip?_eq_some_iff.2 rfl
    have front : takeIso? (hour ++ ':' :: (minute ++ ':' :: (second ++ behind))) =
        some ((v.hour, v.minute, v.second), behind) := by
      simp only [takeIso?, Option.bind_eq_bind, takeDigits?_append hh, takeDigits?_append hm, takeDigits?_append hs,
        skip, Option.bind_some]
    rw [readIsoSeconds?, front, Option.bind_eq_bind, Option.bind_some]
    obtain ⟨rfl, nano⟩ | ⟨f, rfl, some, digits, nano⟩ := rest
    · rw [← of?_parts v, nano]
    · have ok : (!f.isEmpty && f.all isAsciiDigit) = true := by
        simpa [some] using digits
      simp only [ok, if_true]
      rw [← of?_parts v, nanosOf_eq_iff.2 nano]

/-- A time is read from the texts that write it in ISO form. -/
theorem readIso?_eq_some_iff : readIso? t = some v ↔ ∃ places, v.WritesIso places t := by
  have noColon {w : Text} (digits : ∀ c ∈ w, isAsciiDigit c) : ∀ c ∈ w, c ≠ ':' := by
    rintro _ hc rfl
    exact absurd (digits _ hc) (by decide)
  rw [readIso?, Option.orElse_eq_orElse, Option.orElse_eq_or, Option.or_eq_some_iff]
  constructor
  · rintro (h | ⟨-, h⟩)
    · obtain ⟨hour, minute, second, behind, hh, hm, hs, ⟨rfl, nano⟩ | ⟨f, rfl, some, digits, nano⟩, rfl⟩ :=
        readIsoSeconds?_eq_some_iff.1 h
      · exact ⟨0, by simpa using WritesIso.seconds hh hm hs nano⟩
      · exact ⟨f.length, by simpa using WritesIso.fraction hh hm hs some digits nano⟩
    · obtain ⟨hour, minute, second, behind, hh, hm, hs, rest, whole⟩ := readIsoSeconds?_eq_some_iff.1 h
      have tail : ∀ c ∈ second ++ behind, c ≠ ':' := by
        refine List.forall_mem_append.2 ⟨noColon hs.digits, ?_⟩
        obtain ⟨rfl, -⟩ | ⟨f, rfl, -, digits, -⟩ := rest
        · simp
        · exact List.forall_mem_cons.2 ⟨by decide, noColon digits⟩
      have cut : t ++ ':' :: ['0', '0'] = (hour ++ ':' :: minute) ++ ':' :: (second ++ behind) := by
        simpa using whole
      obtain ⟨rfl, -, zeros⟩ := eq_of_append_cons_right (by simp) tail (by simp) (by simp) cut
      have zeros : second ++ behind = ['0', '0'] ++ [] := zeros.symm
      obtain ⟨rfl, none⟩ := List.append_inj zeros hs.length
      obtain ⟨-, nano⟩ | ⟨f, rfl, -⟩ := rest
      · exact ⟨0, .minutes hh hm hs.value.symm nano⟩
      · cases none
  · rintro ⟨_, @⟨hour, minute, hh, hm, second, nano⟩ | ⟨hh, hm, hs, nano⟩ | ⟨hh, hm, hs, some, digits, nano⟩⟩
    · refine .inr ⟨?_, readIsoSeconds?_eq_some_iff.2 ⟨hour, minute, ['0', '0'], [], hh, hm, ?_, .inl ⟨rfl, nano⟩,
        by simp⟩⟩
      · -- Without a second colon there are no seconds to read.
        rw [Option.eq_none_iff_forall_ne_some]
        intro v' h
        obtain ⟨hour', minute', second', behind, hh', hm', -, -, whole⟩ := readIsoSeconds?_eq_some_iff.1 h
        obtain ⟨-, -, rest⟩ := eq_of_append_cons (noColon hh.digits) (noColon hh'.digits) (by simp) (by simp) whole
        have long := congrArg List.length rest
        have := hm.length
        have := hm'.length
        simp only [List.length_append, List.length_cons] at long
        omega
      · exact ⟨rfl, List.all_eq_true.1 rfl, second.symm⟩
    · exact .inl (readIsoSeconds?_eq_some_iff.2 ⟨_, _, _, [], hh, hm, hs, .inl ⟨rfl, nano⟩, by simp⟩)
    · exact .inl (readIsoSeconds?_eq_some_iff.2 ⟨_, _, _, _, hh, hm, hs, .inr ⟨_, rfl, some, digits, nano⟩, by simp⟩)

end Time

end StepMatch
