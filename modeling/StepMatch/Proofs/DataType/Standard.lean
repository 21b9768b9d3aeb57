import StepMatch.Proofs.Matcher.Pieces
import StepMatch.Proofs.Regex.Folded

/-!
# The standard registries are local

The regexes of the standard data types look at nothing but what they take, in every locale. For numbers
this does not depend on the marks, and for dates and times it does not depend on the names of months, as
long as these close with ink. What phrases take as a value closes with ink, too.
-/

namespace StepMatch

open Regex (Dialect Writes WritesAtom IsValueText IsValuePart isLocalText isValuePart_digits
  isValuePart_digitsUpTo)

section Signs

variable (d : Dialect)

theorem writesAtom_colon : WritesAtom d [':'] {[':']} := Regex.writesAtom_escapeChar d ':'

theorem writesAtom_dash : WritesAtom d ['-'] {['-']} :=
  Regex.ofSet_single '-' ▸ .ofSet (.ofState fun s plain => by
    obtain ⟨mode, inner, outer, names⟩ := s
    cases plain
    rfl)

/-- The sign of a number. -/
theorem writesAtom_sign :
    WritesAtom d "[+-]".toList (Regex.ofSet (.union (.single '+') (.single '-'))) :=
  .ofSet (.ofState fun s plain => by
    obtain ⟨mode, inner, outer, names⟩ := s
    cases plain
    rfl)

/-- What stands between the date and the time in ISO form. -/
theorem writesAtom_timeMark :
    WritesAtom d "[T ]".toList (Regex.ofSet (.union (.single 'T') (.single ' '))) :=
  .ofSet (.ofState fun s plain => by
    obtain ⟨mode, inner, outer, names⟩ := s
    cases plain
    rfl)

end Signs

/-- Digits, as many as there are. -/
theorem isValuePart_digitsPlus : IsValuePart true "\\d+".toList :=
  .plus Regex.writesAtom_digit Regex.closesInInk_digit

namespace NumberMarks

variable {m : NumberMarks}

theorem isValuePart_wholeRegex (three : m.groupSize = 3) : IsValuePart false m.wholeRegex := by
  have behind : IsValuePart true (Regex.escapeChar m.grouping ++ Regex.digits 3) :=
    (isValuePart_digits (by decide) (by decide)).after fun d => (Regex.writesAtom_escapeChar d _).writes
  have groups : IsValuePart true (Regex.digitsUpTo 3 ++
      (Regex.grouped (Regex.escapeChar m.grouping ++ Regex.digits 3) ++ ['+'])) :=
    (isValuePart_digitsUpTo (by decide) (by decide)).append behind.grouped_plus
  have either := Regex.isValueText_alternatives (List.cons_ne_nil _ _)
    (List.forall_mem_cons.2 ⟨groups.text, List.forall_mem_singleton.2 isValuePart_digitsPlus.text⟩)
  rw [wholeRegex, three, List.append_assoc (Regex.digitsUpTo 3)]
  exact either.grouped.after fun d => (writesAtom_sign d).optional

/-- Numbers with groups of three digits, whatever the marks are. -/
theorem isValueText_regex (three : m.groupSize = 3) (decimals : Bool) :
    IsValueText (m.regex decimals) := by
  have whole := isValuePart_wholeRegex three
  have fraction : IsValuePart true (Regex.escapeChar m.decimal ++ "\\d+".toList) :=
    isValuePart_digitsPlus.after fun d => (Regex.writesAtom_escapeChar d _).writes
  rw [regex]
  split
  · rw [List.append_assoc]
    exact (whole.optional fraction).text
  · exact whole.text

end NumberMarks

/-- The marks of every locale group digits by threes. -/
theorem Locale.groupSize_numberMarks (l : Locale) : l.numberMarks.groupSize = 3 := by
  rw [numberMarks]
  split <;> rfl

section Gaps

variable {t : Text}

theorem exists_writes_gapRegex (inBlanks : Bool) (t : Text) :
    ∃ L, ∀ d, Writes false d (gapRegex inBlanks t) L := by
  induction t generalizing inBlanks with
  | nil => exact ⟨1, fun d => .nil⟩
  | cons c t ih =>
    rw [gapRegex]
    split
    · obtain ⟨L, rest⟩ := ih true
      cases inBlanks with
      | true => exact ⟨L, rest⟩
      | false => exact ⟨_, fun d => (Regex.writes_blanks d).loosen.append (rest d)⟩
    · obtain ⟨L, rest⟩ := ih false
      exact ⟨_, fun d => (Regex.writesAtom_escapeChar d c).writes.append (rest d)⟩

/-- A text behind the last part that closes with ink. -/
theorem isValuePart_gapRegex (ne : t ≠ []) (ink : t.endsBlank = false) (inBlanks : Bool) :
    IsValuePart false (gapRegex inBlanks t) := by
  induction t generalizing inBlanks with
  | nil => exact absurd rfl ne
  | cons c t ih =>
    obtain rfl | more := eq_or_ne t []
    · have own : isBlank c = false := ink
      rw [gapRegex, own, if_neg Bool.false_ne_true, gapRegex, List.append_nil]
      exact ⟨_, fun d => (Regex.writesAtom_escapeChar d c).writes, .singleton own⟩
    · have rest := ih more (by rwa [Text.endsBlank, List.getLast?_cons_of_ne_nil more] at ink)
      rw [gapRegex]
      split
      · cases inBlanks with
        | true => exact rest true
        | false => exact (rest true).after fun d => (Regex.writes_blanks d).loosen
      · exact (rest false).after fun d => (Regex.writesAtom_escapeChar d c).writes

end Gaps

section Months

variable {name x : String} {names : List String}

/-- There are names of months, and each of them closes with ink. -/
def AreInked (names : List String) : Prop :=
  names ≠ [] ∧ ∀ name ∈ names, name.toList ≠ [] ∧ Text.endsBlank name.toList = false

theorem mem_of_mem_insertMonth (h : x ∈ insertMonth name names) : x = name ∨ x ∈ names := by
  induction names with
  | nil => exact .inl (List.mem_singleton.1 h)
  | cons other names ih =>
    rw [insertMonth] at h
    split at h
    · exact .inr h
    · split at h
      · exact List.mem_cons.1 h
      · obtain rfl | h := List.mem_cons.1 h
        · exact .inr List.mem_cons_self
        · exact (ih h).imp_right (List.mem_cons_of_mem other)

theorem insertMonth_ne_nil (name : String) (names : List String) : insertMonth name names ≠ [] := by
  cases names with
  | nil => exact List.cons_ne_nil _ _
  | cons other names =>
    rw [insertMonth]
    split
    · exact List.cons_ne_nil _ _
    · split <;> exact List.cons_ne_nil _ _

/-- The names are those that have been given. -/
theorem mem_of_mem_sorted (h : x ∈ names.foldr insertMonth []) : x ∈ names := by
  induction names with
  | nil => exact h
  | cons name names ih =>
    obtain rfl | h := mem_of_mem_insertMonth h
    · exact List.mem_cons_self
    · exact List.mem_cons_of_mem name (ih h)

/-- The names of months in any case. -/
theorem isValuePart_monthRegex (h : AreInked names) : IsValuePart false (monthRegex names) := by
  obtain ⟨ne, each⟩ := h
  have sorted : (names.foldr insertMonth []).map String.toList ≠ [] := by
    obtain ⟨name, names, rfl⟩ := List.exists_cons_of_ne_nil ne
    simpa using insertMonth_ne_nil name _
  have own := Regex.isValuePart_foldedGroup sorted fun w hw => by
    obtain ⟨name, mem, rfl⟩ := List.mem_map.1 hw
    exact each name (mem_of_mem_sorted mem)
  rwa [List.map_map] at own

end Months

/-- A part in brackets. -/
theorem isValuePart_partGroup {firm : Bool} (name : String) {t : Text} (h : IsValuePart firm t) :
    IsValuePart false (partGroup false name t) := h.text.grouped

namespace DateLayout

variable {months : MonthNames}

theorem isValuePart_partRegex (long : AreInked months.long) (short : AreInked months.short)
    (part : DatePart) : IsValuePart false (partRegex false months part) := by
  have upToTwo : IsValuePart true (Regex.digitsUpTo 2) := isValuePart_digitsUpTo (by decide) (by decide)
  have four : IsValuePart true (Regex.digits 4) := isValuePart_digits (by decide) (by decide)
  cases part with
  | day => exact isValuePart_partGroup "day" upToTwo
  | year => exact isValuePart_partGroup "year" four
  | month form =>
    cases form with
    | numeric => exact isValuePart_partGroup "month" upToTwo
    | short => exact isValuePart_partGroup "month" (isValuePart_monthRegex short)
    | long => exact isValuePart_partGroup "month" (isValuePart_monthRegex long)

/-- Dates, if nothing follows the last part that closes with a blank. -/
theorem isValuePart_regex (long : AreInked months.long) (short : AreInked months.short)
    {layout : DateLayout} (ink : layout.ending.endsBlank = false) :
    IsValuePart false (layout.regex false months) := by
  have part := isValuePart_partRegex long short
  obtain ⟨_, gap⟩ := exists_writes_gapRegex false layout.gap
  obtain ⟨_, gap'⟩ := exists_writes_gapRegex false layout.gap'
  have second := (part layout.second).after fun d => gap d
  have third := (part layout.third).after fun d => gap' d
  have parts := ((part layout.first).append second).append third
  have same : layout.regex false months = partRegex false months layout.first ++
      (gapRegex false layout.gap ++ partRegex false months layout.second) ++
      (gapRegex false layout.gap' ++ partRegex false months layout.third) ++
      gapRegex false layout.ending := by
    simp only [regex, List.append_assoc]
  rw [same]
  obtain none | ne := eq_or_ne layout.ending []
  · rw [none, gapRegex, List.append_nil]
    exact parts
  · exact parts.append (isValuePart_gapRegex ne ink false)

end DateLayout

/-- Times of day open with the hour. -/
theorem TimeLayout.exists_regex_eq (layout : TimeLayout) : ∃ behind,
    layout.regex false = partGroup false "hour" (Regex.digitsUpTo 2) ++ behind ∧
      IsValuePart false behind := by
  have two : IsValuePart true (Regex.digits 2) := isValuePart_digits (by decide) (by decide)
  have minute : IsValuePart false (':' :: partGroup false "minute" (Regex.digits 2)) :=
    (isValuePart_partGroup _ two).cons writesAtom_colon
  have second : IsValuePart false (':' :: partGroup false "second" (Regex.digits 2)) :=
    (isValuePart_partGroup _ two).cons writesAtom_colon
  have half : IsValuePart false ("\\s*".toList ++
      partGroup false "meridiem" (Regex.foldedGroup "[ap]\\.?m\\.?".toList)) :=
    (Regex.isValuePart_grouped_of_readsAsValue (by decide +kernel)).after fun d =>
      (Regex.writes_slack d).loosen
  simp only [regex, List.append_assoc, List.append_cancel_left_eq, exists_eq_left']
  cases layout.seconds with
  | false =>
    cases layout.halfDay with
    | false => simpa using minute
    | true => simpa using minute.append half
  | true =>
    cases layout.halfDay with
    | false => simpa using minute.append second
    | true => simpa using minute.append (second.append half)

/-- Times of day. -/
theorem TimeLayout.isValuePart_regex (layout : TimeLayout) : IsValuePart false (layout.regex false) := by
  have hour : IsValuePart false (partGroup false "hour" (Regex.digitsUpTo 2)) :=
    isValuePart_partGroup _ (isValuePart_digitsUpTo (by decide) (by decide))
  obtain ⟨behind, same, rest⟩ := layout.exists_regex_eq
  rw [same]
  exact hour.append rest

/-- What may stand between a date and a time. -/
theorem exists_writes_separator : ∃ L, ∀ d, Writes false d TemporalLayout.separator L :=
  ⟨_, fun d => (((Regex.writesAtom_escapeChar d ',').writes.append (Regex.writes_slack d)).loosen.body.bar
    (Regex.writes_blanks d).loosen.body).grouped.writes⟩

/-- Dates in ISO form open with the year, and times with the hour. -/
theorem TemporalForm.exists_isoRegex_eq (form : TemporalForm) : ∃ n behind, 0 < n ∧ n < 10 ∧
    form.isoRegex = Regex.digits n ++ behind ∧ IsValuePart true behind := by
  have two : IsValuePart true (Regex.digits 2) := isValuePart_digits (by decide) (by decide)
  have part : IsValuePart true ('-' :: Regex.digits 2) := two.cons writesAtom_dash
  have next : IsValuePart true (':' :: Regex.digits 2) := two.cons writesAtom_colon
  have fraction : IsValuePart true ("\\.".toList ++ Regex.digitsUpTo 9) :=
    (isValuePart_digitsUpTo (by decide) (by decide)).after fun d =>
      (Regex.writesAtom_escapeChar d '.').writes
  have behind := next.optional (next.optional fraction)
  have day := part.append part
  cases form with
  | date => exact ⟨4, _, by decide, by decide, by simp [isoRegex, isoDateRegex], day⟩
  | time => exact ⟨2, _, by decide, by decide, by simp [isoRegex, isoTimeRegex], behind⟩
  | dateTime =>
    have mark := (two.append behind).after fun d => (writesAtom_timeMark d).writes
    exact ⟨4, _, by decide, by decide, by simp [isoRegex, isoDateRegex, isoTimeRegex],
      day.append mark⟩

theorem isValuePart_isoRegex (form : TemporalForm) : IsValuePart true form.isoRegex := by
  obtain ⟨n, behind, pos, few, same, rest⟩ := form.exists_isoRegex_eq
  rw [same]
  exact (isValuePart_digits pos few).append rest

namespace Locale

/-- Nothing follows the last part of a date in a locale that closes with a blank. -/
theorem ending_dateLayouts (l : Locale) : ∀ d ∈ l.dateLayouts, d.ending.endsBlank = false := by
  rw [dateLayouts]
  split
  · decide
  · split <;> decide

/-- The names of months in a locale close with ink. -/
theorem areInked_monthNames (l : Locale) : AreInked l.monthNames.long ∧ AreInked l.monthNames.short := by
  have each : ∀ months ∈ [MonthNames.english, .spanish, .french, .german, .italian, .portuguese],
      ∀ names ∈ [months.long, months.short], names.isEmpty = false ∧
        names.all (fun name => !name.toList.isEmpty && !Text.endsBlank name.toList) = true := by
    decide +kernel
  have mem : l.monthNames ∈ [MonthNames.english, .spanish, .french, .german, .italian, .portuguese] := by
    rw [monthNames]
    split <;> simp
  have inked : ∀ names ∈ [l.monthNames.long, l.monthNames.short], AreInked names := fun names h => by
    obtain ⟨ne, ink⟩ := each _ mem names h
    exact ⟨List.isEmpty_eq_false_iff.1 ne, by simpa using ink⟩
  exact ⟨inked _ (by simp), inked _ (by simp)⟩

end Locale

theorem TemporalLayout.isValuePart_regex {l : Locale} {form : TemporalForm} {layout : TemporalLayout}
    (h : layout ∈ form.layouts l) : IsValuePart false (layout.regex false l.monthNames) := by
  have date {d : DateLayout} (hd : d ∈ l.dateLayouts) :=
    DateLayout.isValuePart_regex l.areInked_monthNames.1 l.areInked_monthNames.2 (l.ending_dateLayouts d hd)
  cases form with
  | date =>
    obtain ⟨d, hd, rfl⟩ := List.mem_map.1 h
    exact date hd
  | time =>
    obtain ⟨t, -, rfl⟩ := List.mem_map.1 h
    exact t.isValuePart_regex
  | dateTime =>
    obtain ⟨d, hd, h⟩ := List.mem_flatMap.1 h
    obtain ⟨t, -, rfl⟩ := List.mem_map.1 h
    obtain ⟨_, between⟩ := exists_writes_separator
    rw [regex, List.append_assoc]
    exact (date hd).append (t.isValuePart_regex.after between)

theorem DataType.isValueText_temporal (name : String) (form : TemporalForm) (l : Locale) :
    IsValueText ((temporal name form).regex l) := by
  refine Regex.isValueText_alternatives (by simp) fun t ht => ?_
  obtain laid | iso := List.mem_append.1 ht
  · obtain ⟨layout, h, rfl⟩ := List.mem_map.1 laid
    exact (TemporalLayout.isValuePart_regex h).text
  · rw [List.mem_singleton.1 iso]
    exact (isValuePart_isoRegex form).text

theorem DataType.isLocalText_fixed : ([DataType.word, .identifier, .quotedText].all fun type =>
    isLocalText (type.regex .default)) = true := by
  decide +kernel

/-- The standard data types are local in every locale. -/
theorem DataTypes.areLocal_standard (l : Locale) : AreLocal standard l := by
  intro name type found
  have fixed := List.all_eq_true.1 DataType.isLocalText_fixed
  have whole := (NumberMarks.isValueText_regex l.groupSize_numberMarks false).isLocalText
  have decimal := (NumberMarks.isValueText_regex l.groupSize_numberMarks true).isLocalText
  have temporal (name : String) (form : TemporalForm) :=
    (DataType.isValueText_temporal name form l).isLocalText
  have each : ∀ type ∈ [DataType.word, .identifier, .quotedText, .integer, .long "number",
      .long "long", .decimal "decimal", .date, .time, .dateTime],
      isLocalText (type.regex l) = true := by
    simp only [List.forall_mem_cons]
    exact ⟨fixed .word (by simp), fixed .identifier (by simp), fixed .quotedText (by simp), whole,
      whole, whole, decimal, temporal _ _, temporal _ _, temporal _ _, by simp⟩
  obtain mem | found := Registry.mem_of_find_registerAll found
  · exact each type mem
  · cases Registry.get?_of_find found

end StepMatch
