import StepMatch.Proofs.DataType.Recognition
import StepMatch.Proofs.DataType.Unambiguous

/-!
# Dates and times in words

A value is written in a layout part by part: numbers with a zero in front or without, names of months in any
ASCII case, any blanks for the spaces of the layout, hours up to twelve with a mark for the half of the day.
Whatever is written so is recognised as a whole, and read as the value again.
-/

namespace StepMatch

variable {months : MonthNames} {t w : Text} {n : Nat}

/-- The text writes a number up to 99, without a zero in front or with one that fills two digits. -/
inductive IsNumeral (n : Nat) : Text → Prop
  | short : IsNumeral n (Nat.toDigits 10 n)
  | filled : IsNumeral n (padded 2 n).toList

theorem IsNumeral.read (h : IsNumeral n w) (lt : n < 100) :
    w ∈ digitsLanguage 1 2 ∧ readNatural? w = some n := by
  have few : (Nat.toDigits 10 n).length ≤ 2 := Nat.toDigits_length 10 n 2 (by decide) lt
  have some : 0 < (Nat.toDigits 10 n).length := List.length_pos_iff.2 Nat.toDigits_ne_nil
  obtain ⟨digits, value, low, high⟩ : (∀ c ∈ w, isAsciiDigit c) ∧ digitsValue w = n ∧ 1 ≤ w.length ∧ w.length ≤ 2 := by
    cases h with
    | short => exact ⟨isAsciiDigit_of_mem_toDigits, digitsValue_toDigits n, some, few⟩
    | filled =>
      have length : (padded 2 n).toList.length = 2 := length_padded (by decide) lt
      exact ⟨isAsciiDigit_of_mem_padded, digitsValue_padded 2 n, by omega, by omega⟩
  exact ⟨(mem_digitsLanguage_iff (by decide)).2 ⟨low, high, fun c hc => isDigit_of_isAsciiDigit (digits c hc)⟩,
    readNatural?_eq_some_iff.2 ⟨List.ne_nil_of_length_pos low, digits, value⟩⟩

/-- The text writes a part of a date. Names of months are in any ASCII case. -/
inductive DatePart.Spells (months : MonthNames) (d : Date) : DatePart → Text → Prop
  | day {w : Text} (h : IsNumeral d.day w) : Spells months d .day w
  | number {w : Text} (h : IsNumeral d.month w) : Spells months d (.month .numeric) w
  | name {form : MonthForm} {name : String} {w : Text} (named : form ≠ .numeric)
      (own : (months.inForm form)[d.month - 1]? = some name) (h : List.Forall₂ IsAsciiCase name.toList w) :
      Spells months d (.month form) w
  | year (era : 0 ≤ d.year) : Spells months d .year (padded 4 d.year.natAbs).toList

/-- The text writes a date in the layout, with any blanks for each space between the parts. -/
inductive DateLayout.Spells (layout : DateLayout) (months : MonthNames) (d : Date) : Text → Prop
  | mk {w g w' g' w'' e : Text} (first : layout.first.Spells months d w) (gap : Text.Alike g layout.gap)
      (second : layout.second.Spells months d w') (gap' : Text.Alike g' layout.gap')
      (third : layout.third.Spells months d w'') (ending : Text.Alike e layout.ending) :
      Spells layout months d (w ++ g ++ w' ++ g' ++ w'' ++ e)

/-- A point, or none. -/
def OptionalPoint (w : Text) : Prop := w = [] ∨ w = ['.']

/-- The text marks a half of the day, in any case and with a point after either letter or none. -/
inductive IsHalfMark (afternoon : Bool) : Text → Prop
  | mk {c m : Char} {e e' : Text} (half : IsAsciiCase (if afternoon then 'p' else 'a') c) (point : OptionalPoint e)
      (middle : IsAsciiCase 'm' m) (point' : OptionalPoint e') : IsHalfMark afternoon (c :: (e ++ m :: e'))

namespace Time

/-- Whether the time is in the second half of the day. -/
def isAfternoon (v : Time) : Bool := decide (12 ≤ v.hour)

/-- The hour from one to twelve. -/
def halfHour (v : Time) : Nat := if v.hour % 12 = 0 then 12 else v.hour % 12

theorem fullHour?_halfHour (v : Time) : StepMatch.fullHour? v.isAfternoon v.halfHour = some v.hour := by
  have lt := v.hour_lt
  have bounds : 1 ≤ v.halfHour ∧ v.halfHour ≤ 12 ∧ v.halfHour % 12 = v.hour % 12 := by
    rw [halfHour]
    split <;> omega
  rw [StepMatch.fullHour?, if_pos ⟨bounds.1, bounds.2.1⟩, bounds.2.2, isAfternoon]
  by_cases late : 12 ≤ v.hour <;> simp [late] <;> omega

end Time

namespace TimeLayout

/-- The text writes the seconds, if the layout has them. -/
inductive SpellsSeconds (layout : TimeLayout) (v : Time) : Text → Prop
  | none (without : layout.seconds = false) (zero : v.second = 0) : SpellsSeconds layout v []
  | some (has : layout.seconds = true) : SpellsSeconds layout v (':' :: (padded 2 v.second).toList)

/-- The text writes what comes behind the numbers: nothing, or blanks or none and a mark. -/
inductive SpellsHalf (layout : TimeLayout) (v : Time) : Text → Prop
  | none (without : layout.halfDay = false) : SpellsHalf layout v []
  | some {g w : Text} (has : layout.halfDay = true) (blank : ∀ c ∈ g, isBlank c)
      (mark : IsHalfMark v.isAfternoon w) : SpellsHalf layout v (g ++ w)

/-- The text writes a time in the layout. -/
inductive Spells (layout : TimeLayout) (v : Time) : Text → Prop
  | mk {hour s m : Text} (whole : v.nano = 0)
      (hh : IsNumeral (if layout.halfDay then v.halfHour else v.hour) hour) (second : layout.SpellsSeconds v s)
      (half : layout.SpellsHalf v m) : Spells layout v (hour ++ ':' :: (padded 2 v.minute).toList ++ s ++ m)

end TimeLayout

/-- The text joins a date and a time: blanks, or a comma and blanks or none. -/
inductive IsJoint : Text → Prop
  | blanks {g : Text} (ne : g ≠ []) (blank : ∀ c ∈ g, isBlank c) : IsJoint g
  | comma {g : Text} (blank : ∀ c ∈ g, isBlank c) : IsJoint (',' :: g)

/-- The text writes a value in the layout. -/
inductive TemporalLayout.Spells (months : MonthNames) : TemporalLayout → Value → Text → Prop
  | date {layout : DateLayout} {d : Date} {t : Text} (h : layout.Spells months d t) :
      Spells months (.date layout) (.date d) t
  | time {layout : TimeLayout} {v : Time} {t : Text} (h : layout.Spells v t) :
      Spells months (.time layout) (.time v) t
  | dateTime {layout : DateLayout} {layout' : TimeLayout} {d : Date} {v : Time} {t s u : Text}
      (date : layout.Spells months d t) (joint : IsJoint s) (time : layout'.Spells v u) :
      Spells months (.dateTime layout layout') (.dateTime d v) (t ++ s ++ u)

/-- The names of the months are found under their numbers, twelve in either form. -/
def MonthNames.AreNumbered (months : MonthNames) : Prop := ∀ form ∈ [MonthForm.short, .long],
  (months.inForm form).map (fun name => months.numberOf? name.toList) = (List.range' 1 12).map some

instance (months : MonthNames) : Decidable months.AreNumbered := inferInstanceAs (Decidable (∀ _ ∈ _, _))

theorem Locale.areNumbered_monthNames (l : Locale) : l.monthNames.AreNumbered := by
  have each : ∀ c ∈ dateConventions, c.2.AreNumbered := by decide +kernel
  exact each _ l.mem_dateConventions

theorem MonthNames.numberOf?_eq (same : Text.lower t = Text.lower w) : months.numberOf? t = months.numberOf? w := by
  simp only [numberOf?, same]

theorem lower_eq_of_isAsciiCase (h : List.Forall₂ IsAsciiCase t w) : Text.lower w = Text.lower t := by
  induction h with
  | nil => rfl
  | cons same _ ih => exact congrArg₂ List.cons same.same.2 ih

namespace DatePart.Spells

variable {d : Date} {p : DatePart} {form : MonthForm}

/-- A part is written as a text of the part. -/
theorem mem_language (h : p.Spells months d w) : w ∈ p.language months := by
  cases h with
  | day own => exact (own.read d.day_lt).1
  | number own => exact (own.read (by have := d.month_range; omega)).1
  | @name form name w named own cased =>
    have mem : w ∈ monthsLanguage (months.inForm form) := ⟨name, List.mem_of_getElem? own,
      Regex.mem_anyCase_iff.2 (cased.imp fun _ _ same => same.same.1)⟩
    cases form with
    | numeric => exact absurd rfl named
    | short => exact mem
    | long => exact mem
  | year =>
    have range := d.year_range
    exact (writesNumber_padded (by decide) (by omega)).mem_digitsLanguage

theorem read_day (h : Spells months d .day w) : readNatural? w = some d.day := by
  cases h with
  | day own => exact (own.read d.day_lt).2

theorem read_year (h : Spells months d .year w) : ∃ k : Nat, readNatural? w = some k ∧ d.year = k := by
  cases h with
  | year era =>
    have range := d.year_range
    exact ⟨d.year.natAbs, (writesNumber_padded (by decide) (by omega)).readNatural? (by decide), by omega⟩

/-- The name of a month is no number, and is found whatever its case is. -/
theorem readMonth?_eq (h : Spells months d (.month form) w) (lettered : months.AreClear)
    (numbered : months.AreNumbered) : months.readMonth? w = some d.month := by
  have range := d.month_range
  have mem := h.mem_language
  rw [MonthNames.readMonth?]
  cases h with
  | number own =>
    rw [(own.read (by omega)).2]
    rfl
  | @name _ name _ named own cased =>
    have none : readNatural? w = none := by
      rw [Option.eq_none_iff_forall_ne_some]
      intro k read
      obtain ⟨ne, digits, -⟩ := readNatural?_eq_some_iff.1 read
      obtain ⟨c, cs, rfl⟩ := List.exists_cons_of_ne_nil ne
      have numeric : DatePart.isNumeric (.month form) = false := by
        cases form with
        | numeric => exact absurd rfl named
        | _ => rfl
      have mark := (marks_of_not_isNumeric lettered numeric mem c List.mem_cons_self).1
      have digit := isDigit_of_isAsciiDigit (digits c List.mem_cons_self)
      rw [(isMark_iff.1 mark).1] at digit
      cases digit
    have found : months.numberOf? name.toList = some d.month := by
      have row := congrArg (·[d.month - 1]?) (numbered form (by cases form <;> simp at named ⊢))
      simp only [List.getElem?_map, own, Option.map_some, List.getElem?_range' (show d.month - 1 < 12 by omega),
        Option.some.injEq] at row
      rw [row]
      exact congrArg some (by omega)
    rw [none, MonthNames.numberOf?_eq (lower_eq_of_isAsciiCase cased), found]
    rfl

end DatePart.Spells

/-- A date that is written in a layout fits it, with parts that are read as the date. -/
theorem DateLayout.Spells.exists_fits {layout : DateLayout} {d : Date} (h : layout.Spells months d t)
    (complete : layout.IsComplete) (lettered : months.AreClear) (numbered : months.AreNumbered) :
    ∃ x : DateParts, layout.Fits months x t ∧ x.read? months = some d := by
  obtain @⟨w, _, w', _, w'', _, first, gap, second, gap', third, ending⟩ := h
  obtain ⟨x, rfl, rfl, rfl⟩ := complete.exists_parts w w' w''
  have spelled : ∀ p ∈ layout.parts, p.Spells months d (x.text p) :=
    List.forall_mem_cons.2 ⟨first, List.forall_mem_cons.2 ⟨second, List.forall_mem_singleton.2 third⟩⟩
  refine ⟨x, .mk (fun p hp => (spelled p hp).mem_language) gap gap' ending, ?_⟩
  obtain ⟨day, ⟨form, month⟩, year⟩ := complete.mem_parts
  have day : readNatural? x.day = some d.day := (spelled _ day).read_day
  have month : months.readMonth? x.month = some d.month := (spelled _ month).readMonth?_eq lettered numbered
  obtain ⟨k, read, own⟩ : ∃ k : Nat, readNatural? x.year = some k ∧ d.year = k := (spelled _ year).read_year
  rw [DateParts.read?, day, month, read]
  simp only [Option.bind_eq_bind, Option.bind_some]
  rw [← own, Date.of?_parts]

theorem IsHalfMark.mem_half {afternoon : Bool} (h : IsHalfMark afternoon w) : w ∈ halfRegex.language := by
  obtain ⟨half, point, middle, point'⟩ := h
  have points {e : Text} (point : OptionalPoint e) : IsPoint e := point.imp id fun e => ⟨'.', by decide, e⟩
  refine mem_language_half_iff.2 ⟨_, _, _, _, ?_, points point, middle.same.1, points point', rfl⟩
  cases afternoon with
  | false => exact .inl half.same.1
  | true => exact .inr half.same.1

/-- The first letter of the mark tells the half. -/
theorem IsHalfMark.head {afternoon : Bool} (h : IsHalfMark afternoon w) :
    (w.head?.any fun c => c.toLower == 'p') = afternoon := by
  obtain ⟨half, -, -, -⟩ := h
  cases afternoon <;> obtain rfl | rfl | rfl := half <;> rfl

/-- A time that is written in a layout fits it, with parts that are read as the time. -/
theorem TimeLayout.Spells.exists_fits {layout : TimeLayout} {v : Time} (h : layout.Spells v t) :
    ∃ y : TimeParts, layout.Fits y t ∧ y.read? = some v := by
  obtain @⟨hour, s, m, whole, hh, second, half⟩ := h
  have minute : WritesNumber 2 (padded 2 v.minute).toList v.minute :=
    writesNumber_padded (by decide) (by have := v.minute_lt; omega)
  obtain ⟨s?, seconds, readSecond⟩ : ∃ s?, IsOptional layout.seconds {[':']} (digitsLanguage 2 2) s? s ∧
      TimeParts.readSecond? ⟨hour, (padded 2 v.minute).toList, s?, none⟩ = some v.second := by
    cases second with
    | none without zero => exact ⟨none, .absent without, congrArg some zero.symm⟩
    | some has =>
      have own : WritesNumber 2 (padded 2 v.second).toList v.second :=
        writesNumber_padded (by decide) (by have := v.second_lt; omega)
      exact ⟨_, .present (g := [':']) has rfl own.mem_digitsLanguage, own.readNatural? (by decide)⟩
  have lt := v.hour_lt
  obtain ⟨m?, halves, readHour⟩ : ∃ m?, IsOptional layout.halfDay Regex.slack halfRegex.language m? m ∧
      TimeParts.fullHour? ⟨hour, (padded 2 v.minute).toList, s?, m?⟩
        (if layout.halfDay then v.halfHour else v.hour) = some v.hour := by
    cases half with
    | none without => exact ⟨none, .absent without, by simp [TimeParts.fullHour?, without]⟩
    | some has blank mark =>
      refine ⟨_, .present has blank mark.mem_half, ?_⟩
      simp only [TimeParts.fullHour?, mark.head, has, if_true]
      exact v.fullHour?_halfHour
  have small : (if layout.halfDay then v.halfHour else v.hour) < 100 := by
    rw [Time.halfHour]
    split <;> (try split) <;> omega
  refine ⟨⟨hour, (padded 2 v.minute).toList, s?, m?⟩, .mk (hh.read small).1 minute.mem_digitsLanguage seconds halves, ?_⟩
  have second : TimeParts.readSecond? ⟨hour, (padded 2 v.minute).toList, s?, m?⟩ = some v.second := readSecond
  rw [TimeParts.read?, (hh.read small).2, minute.readNatural? (by decide), second]
  simp only [Option.bind_eq_bind, Option.bind_some, readHour]
  rw [← whole, Time.of?_parts]

theorem IsJoint.mem_separatorLanguage (h : IsJoint t) : t ∈ TemporalLayout.separatorLanguage := by
  rw [TemporalLayout.separatorLanguage, Language.mem_add]
  cases h with
  | blanks ne blank => exact .inr ⟨ne, blank⟩
  | comma blank => exact .inl (Language.mem_mul.2 ⟨[','], rfl, _, blank, rfl⟩)

section Locales

variable {l : Locale} {form : TemporalForm} {layout : TemporalLayout} {v : Value}

/-- What is written in a layout of the locale fits it, with parts that are read as the value. -/
theorem TemporalLayout.Spells.exists_fits (mem : layout ∈ form.layouts l) (h : layout.Spells l.monthNames v t) :
    ∃ p, layout.Fits l.monthNames p t ∧ p.read? l.monthNames = some v := by
  have reads := l.readsDates
  have complete := (TemporalForm.form_and_isComplete mem).2
  cases h with
  | date own =>
    obtain ⟨x, fits, read⟩ := own.exists_fits complete reads.lettered l.areNumbered_monthNames
    exact ⟨.date x, .date fits, congrArg (Option.map Value.date) read⟩
  | time own =>
    obtain ⟨y, fits, read⟩ := own.exists_fits
    exact ⟨.time y, .time fits, congrArg (Option.map Value.time) read⟩
  | dateTime date joint time =>
    obtain ⟨x, fits, read⟩ := date.exists_fits complete reads.lettered l.areNumbered_monthNames
    obtain ⟨y, fits', read'⟩ := time.exists_fits
    refine ⟨.dateTime x y, .dateTime fits joint.mem_separatorLanguage fits', ?_⟩
    rw [TemporalParts.read?, read, read']
    rfl

/-- What a layout of the locale reads from a text without blanks around it is what is read. -/
theorem TemporalForm.read?_eq_of_fits (mem : layout ∈ form.layouts l) {p : TemporalParts}
    (fits : layout.Fits l.monthNames p t) (read : p.read? l.monthNames = some v) : form.read? l t = some v := by
  obtain ⟨rfl, complete⟩ := form_and_isComplete mem
  obtain ⟨q, fits', reads⟩ := fits.exists_readLayout?_eq l.readsDates.filled complete
  rw [← unique_fits mem mem fits fits', read] at reads
  refine read?_eq_of_mem_readers (List.mem_append_left _ (List.mem_map_of_mem mem)) ?_
  rw [trim_of_fits mem fits, reads]

/-- Whether the layout can write a value: years have four digits and no sign, and what is smaller than the
last part is zero. -/
def TemporalLayout.Admits : TemporalLayout → Value → Prop
  | .date _, .date d => 0 ≤ d.year
  | .time layout, .time v => v.nano = 0 ∧ (layout.seconds = false → v.second = 0)
  | .dateTime _ layout, .dateTime d v => 0 ≤ d.year ∧ v.nano = 0 ∧ (layout.seconds = false → v.second = 0)
  | _, _ => False

theorem DateLayout.exists_spells {layout : DateLayout} {d : Date} (era : 0 ≤ d.year)
    (numbered : months.AreNumbered) : ∃ t, layout.Spells months d t := by
  have part (p : DatePart) : ∃ w, p.Spells months d w := by
    cases p with
    | day => exact ⟨_, .day .short⟩
    | year => exact ⟨_, .year era⟩
    | month form =>
      obtain rfl | named := eq_or_ne form .numeric
      · exact ⟨_, .number .short⟩
      · have range := d.month_range
        have twelve : (months.inForm form).length = 12 := by
          simpa using congrArg List.length (numbered form (by cases form <;> simp at named ⊢))
        have own := List.getElem?_eq_getElem (l := months.inForm form) (i := d.month - 1) (by omega)
        exact ⟨_, .name named own (List.forall₂_same.2 fun _ _ => .inl rfl)⟩
  obtain ⟨w, first⟩ := part layout.first
  obtain ⟨w', second⟩ := part layout.second
  obtain ⟨w'', third⟩ := part layout.third
  exact ⟨_, .mk first (.refl _) second (.refl _) third (.refl _)⟩

theorem TimeLayout.exists_spells {layout : TimeLayout} {v : Time} (whole : v.nano = 0)
    (zero : layout.seconds = false → v.second = 0) : ∃ t, layout.Spells v t := by
  obtain ⟨s, second⟩ : ∃ s, layout.SpellsSeconds v s := by
    cases has : layout.seconds
    · exact ⟨_, .none has (zero has)⟩
    · exact ⟨_, .some has⟩
  obtain ⟨m, half⟩ : ∃ m, layout.SpellsHalf v m := by
    cases has : layout.halfDay
    · exact ⟨_, .none has⟩
    · exact ⟨_, .some has (g := []) (by simp) (.mk (.inl rfl) (.inl rfl) (.inl rfl) (.inl rfl))⟩
  exact ⟨_, .mk whole .short second half⟩

end Locales

namespace DataType

/-- In the locale, values in words are recognised and read again. -/
structure ReadsNarratives (form : TemporalForm) (l : Locale) : Prop where
  /-- Every layout can write the values that it admits. -/
  writable : ∀ layout ∈ form.layouts l, ∀ v, layout.Admits v → ∃ t, layout.Spells l.monthNames v t
  /-- What is written in a layout is taken as a whole, in a sentence and in a phrase. -/
  recognised : ∀ layout ∈ form.layouts l, ∀ v t, layout.Spells l.monthNames v t →
    ∀ name dialect, Regex.Takes dialect ((temporal name form).regex l) t
  /-- And it is read as the value that was written. -/
  rereads : ∀ layout ∈ form.layouts l, ∀ v t, layout.Spells l.monthNames v t →
    ∀ name, (temporal name form).parse l t = .ok v

/-- Dates and times in words make the round trip in every locale. -/
theorem readsNarratives (form : TemporalForm) (l : Locale) : ReadsNarratives form l where
  writable layout _ v admits := by
    have dates {own : DateLayout} {d : Date} (era : 0 ≤ d.year) : ∃ t, own.Spells l.monthNames d t :=
      DateLayout.exists_spells era l.areNumbered_monthNames
    cases layout <;> cases v <;> try exact admits.elim
    · obtain ⟨t, own⟩ := dates admits
      exact ⟨t, .date own⟩
    · obtain ⟨t, own⟩ := TimeLayout.exists_spells admits.1 admits.2
      exact ⟨t, .time own⟩
    · obtain ⟨t, own⟩ := dates admits.1
      obtain ⟨u, own'⟩ := TimeLayout.exists_spells admits.2.1 admits.2.2
      exact ⟨_, .dateTime own (.blanks (g := [' ']) (by simp) (List.all_eq_true.1 rfl)) own'⟩
  recognised layout mem v t written name dialect := by
    obtain ⟨p, fits, -⟩ := written.exists_fits mem
    exact TemporalForm.takes_iff.2 (.inl ⟨layout, mem, p, fits⟩)
  rereads layout mem v t written name := by
    obtain ⟨p, fits, read⟩ := written.exists_fits mem
    have own := TemporalForm.read?_eq_of_fits mem fits read
    simp only [parse, temporal, own]
    rfl

end DataType

end StepMatch
