import StepMatch.Proofs.Assertion.Standard
import StepMatch.Proofs.Regex.Apart

/-!
# How the values of the standard data types open

Numbers open with a sign or a digit, and texts with a quote. So do dates and times open with a digit,
except for dates of the United States, which may open with the name of a month in English.
-/

namespace StepMatch

open Regex (Apart IsApartText OpensApart)

/-- Whether a character is neither a digit nor a sign of numbers. -/
def isPlainInitial (c : Char) : Bool :=
  !CharSet.digit.contains false c && !(CharSet.union (.single '+') (.single '-')).contains false c

variable {c : Char} {b : Text} {l : Locale}

theorem not_digit_of_isPlainInitial (h : isPlainInitial c) : CharSet.digit.contains false c = false := by
  rw [isPlainInitial, Bool.and_eq_true, Bool.not_eq_true'] at h
  exact h.1

namespace NumberMarks

variable {m : NumberMarks}

theorem opensApart_wholeRegex (three : m.groupSize = 3) (plain : isPlainInitial c) :
    OpensApart false (c :: b) m.wholeRegex := by
  have other := not_digit_of_isPlainInitial plain
  rw [isPlainInitial, Bool.and_eq_true, Bool.not_eq_true', Bool.not_eq_true'] at plain
  have group : ∃ M, ∀ d, Regex.Writes true d
      (Regex.grouped (Regex.escapeChar m.grouping ++ Regex.digits 3) ++ ['+']) M := by
    have digits : Regex.IsValuePart true (Regex.digits 3) :=
      Regex.isValuePart_digits (by decide) (by decide)
    exact (digits.after fun d => (Regex.writesAtom_escapeChar d m.grouping).writes).grouped_plus.exists_writes
  have groups := (Regex.opensApart_digitsUpTo (b := b) other (n := 3) (by decide) (by decide)).append group
  have digits : OpensApart true (c :: b) "\\d+".toList :=
    .plus Regex.writesAtom_digit (Regex.apart_digit other)
  have either := Regex.isApartText_alternatives (List.cons_ne_nil _ _)
    (List.forall_mem_cons.2 ⟨groups.text, List.forall_mem_singleton.2 digits.text⟩)
  rw [wholeRegex, three, List.append_assoc (Regex.digitsUpTo 3)]
  exact either.grouped.optional_append writesAtom_sign (.ofSet plain.2)

/-- Numbers open with a digit or a sign. -/
theorem isApartText_regex (three : m.groupSize = 3) (plain : isPlainInitial c) (decimals : Bool) :
    IsApartText (c :: b) (m.regex decimals) := by
  have whole := opensApart_wholeRegex (b := b) three plain
  rw [regex]
  split
  · rw [List.append_assoc]
    have digits := isValuePart_digitsPlus.after fun d =>
      (Regex.writesAtom_escapeChar d m.decimal).writes
    obtain ⟨M, writes, -⟩ := digits
    exact (whole.append ⟨_, fun d => (writes d).body.grouped.optional⟩).text
  · exact whole.text

end NumberMarks

/-- Whether no date in the layout can open with the letters of a text. -/
def DateLayout.differs (d : DateLayout) (months : MonthNames) (b : Text) : Bool :=
  match d.first with
  | .month .short => months.short.all fun name => Regex.differs b name.toList
  | .month .long => months.long.all fun name => Regex.differs b name.toList
  | _ => true

theorem opensApart_monthRegex {names : List String} (ne : names ≠ [])
    (each : ∀ name ∈ names, Regex.differs b name.toList) : OpensApart false b (monthRegex names) := by
  have sorted : (names.foldr insertMonth []).map String.toList ≠ [] := by
    obtain ⟨name, names, rfl⟩ := List.exists_cons_of_ne_nil ne
    simpa using insertMonth_ne_nil name _
  have own := Regex.opensApart_foldedGroup (b := b) sorted fun w hw => by
    obtain ⟨name, mem, rfl⟩ := List.mem_map.1 hw
    exact each name (mem_of_mem_sorted mem)
  rwa [List.map_map] at own

theorem opensApart_partGroup {firm : Bool} (name : String) {t : Text} (h : OpensApart firm b t) :
    OpensApart false b (partGroup false name t) := h.text.grouped

/-- A date opens with its first part. -/
theorem DateLayout.opensApart_regex {months : MonthNames} (long : AreInked months.long)
    (short : AreInked months.short) {layout : DateLayout} (plain : isPlainInitial c)
    (differs : layout.differs months (c :: b)) :
    OpensApart false (c :: b) (layout.regex false months) := by
  have other := not_digit_of_isPlainInitial plain
  have upToTwo := Regex.opensApart_digitsUpTo (b := b) other (n := 2) (by decide) (by decide)
  have four := Regex.opensApart_digits (b := b) other (n := 4) (by decide) (by decide)
  have first : OpensApart false (c :: b) (partRegex false months layout.first) := by
    rw [DateLayout.differs] at differs
    cases own : layout.first with
    | day => exact opensApart_partGroup "day" upToTwo
    | year => exact opensApart_partGroup "year" four
    | month form =>
      rw [own] at differs
      cases form with
      | numeric => exact opensApart_partGroup "month" upToTwo
      | short =>
        exact opensApart_partGroup "month" (opensApart_monthRegex short.1 (List.all_eq_true.1 differs))
      | long =>
        exact opensApart_partGroup "month" (opensApart_monthRegex long.1 (List.all_eq_true.1 differs))
  have second := (isValuePart_partRegex long short layout.second).exists_writes
  have third := (isValuePart_partRegex long short layout.third).exists_writes
  have begun := ((first.append (exists_writes_gapRegex false layout.gap)).append second).append
    (exists_writes_gapRegex false layout.gap')
  exact (begun.append third).append (exists_writes_gapRegex false layout.ending)

/-- A time opens with its hour. -/
theorem TimeLayout.opensApart_regex (layout : TimeLayout) (plain : isPlainInitial c) :
    OpensApart false (c :: b) (layout.regex false) := by
  have hour : OpensApart false (c :: b) (partGroup false "hour" (Regex.digitsUpTo 2)) :=
    opensApart_partGroup _
      (Regex.opensApart_digitsUpTo (not_digit_of_isPlainInitial plain) (by decide) (by decide))
  obtain ⟨behind, same, rest⟩ := layout.exists_regex_eq
  rw [same]
  exact hour.append rest.exists_writes

theorem TemporalForm.opensApart_isoRegex (form : TemporalForm) (plain : isPlainInitial c) :
    OpensApart true (c :: b) form.isoRegex := by
  obtain ⟨n, behind, pos, few, same, rest⟩ := form.exists_isoRegex_eq
  rw [same]
  exact (Regex.opensApart_digits (not_digit_of_isPlainInitial plain) pos few).append rest.exists_writes

/-- What is neither a digit nor the name of a month opens no date or time of the locale. -/
theorem DataType.isApartText_temporal (name : String) (form : TemporalForm) (plain : isPlainInitial c)
    (differs : ∀ d ∈ l.dateLayouts, d.differs l.monthNames (c :: b)) :
    IsApartText (c :: b) ((temporal name form).regex l) := by
  have date {d : DateLayout} (hd : d ∈ l.dateLayouts) :=
    DateLayout.opensApart_regex l.areInked_monthNames.1 l.areInked_monthNames.2 plain (differs d hd)
  refine Regex.isApartText_alternatives (by simp) fun t ht => ?_
  obtain laid | iso := List.mem_append.1 ht
  · obtain ⟨layout, h, rfl⟩ := List.mem_map.1 laid
    cases form with
    | date =>
      obtain ⟨d, hd, rfl⟩ := List.mem_map.1 h
      exact (date hd).text
    | time =>
      obtain ⟨t, -, rfl⟩ := List.mem_map.1 h
      exact (t.opensApart_regex plain).text
    | dateTime =>
      obtain ⟨d, hd, h⟩ := List.mem_flatMap.1 h
      obtain ⟨t, -, rfl⟩ := List.mem_map.1 h
      have dated := (date hd).append exists_writes_separator
      exact (dated.append t.isValuePart_regex.exists_writes).text
  · rw [List.mem_singleton.1 iso]
    exact (form.opensApart_isoRegex plain).text

/-- Text in quotes opens with one. -/
theorem DataType.apart_betweenQuotes {quote : Char} (ne : c ≠ quote) :
    Apart (c :: b) (betweenQuotes quote) := ((Apart.singleton ne).mul _)

end StepMatch
