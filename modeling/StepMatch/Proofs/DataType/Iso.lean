import StepMatch.Proofs.DataType.Recognition
import StepMatch.Proofs.DataType.Unambiguous
import StepMatch.Proofs.Matcher.References

/-!
# Dates and times in ISO form

A date, a time, or a date and a time joined by a `T` or a space are read from their ISO form in every locale,
whatever the layouts of the locale are: these are tried first, but no text has two readings. A text without a
sign is recognised in a sentence, too, so a slot captures the value.
-/

namespace StepMatch

variable {t u : Text} {c : Char} {v : Value} {form : TemporalForm} {l : Locale} {places : Nat}

/-- The text writes a value of the form in ISO form, with so many places behind the point. -/
inductive TemporalForm.WritesIso : TemporalForm → Value → Nat → Text → Prop
  | date {d : Date} {t : Text} (h : d.WritesIso t) : WritesIso .date (.date d) 0 t
  | time {v : Time} {places : Nat} {t : Text} (h : v.WritesIso places t) : WritesIso .time (.time v) places t
  | dateTime {d : Date} {v : Time} {places : Nat} {t u : Text} {c : Char} (date : d.WritesIso t)
      (mark : c = 'T' ∨ c = ' ') (time : v.WritesIso places u) :
      WritesIso .dateTime (.dateTime d v) places (t ++ c :: u)

/-- Whether the text opens with a digit, and so without a sign. -/
def IsUnsigned (t : Text) : Prop := ∃ c u, t = c :: u ∧ isAsciiDigit c

/-- Whether a value has no part of a second in it. -/
def Value.HasWholeSeconds : Value → Prop
  | .time v | .dateTime _ v => v.nano = 0
  | _ => True

/-- Whether the character may stand in a date or a time of ISO form. -/
def isIsoChar (c : Char) : Bool := isAsciiDigit c || ['+', '-', ':', '.'].contains c

theorem isBlank_of_isIsoChar (h : isIsoChar c) : isBlank c = false := by
  obtain digit | mark := Bool.or_eq_true_iff.1 h
  · exact isBlank_eq_false_of_isDigit (isDigit_of_isAsciiDigit digit)
  · have each : ['+', '-', ':', '.'].all (fun c => !isBlank c) = true := by decide
    simpa using List.all_eq_true.1 each c (List.contains_iff_mem.1 mark)

theorem WritesNumber.isIsoChar {width k : Nat} (h : WritesNumber width t k) : ∀ c ∈ t, isIsoChar c :=
  fun c hc => Bool.or_eq_true_iff.2 (.inl (h.digits c hc))

/-- What is made of such characters closes with ink, and opens with it. -/
theorem edges_of_isIsoChar (ne : t ≠ []) (h : ∀ c ∈ t, isIsoChar c) :
    Text.startsBlank (t ++ u) = false ∧ Text.endsBlank (u ++ t) = false := by
  constructor
  · obtain ⟨c, t, rfl⟩ := List.exists_cons_of_ne_nil ne
    exact isBlank_of_isIsoChar (h c List.mem_cons_self)
  · rw [Text.endsBlank, List.getLast?_append_of_ne_nil u ne, List.getLast?_eq_some_getLast ne]
    exact isBlank_of_isIsoChar (h _ (List.getLast_mem ne))

namespace Date

variable {d : Date}

theorem WritesIso.ne_nil (h : d.WritesIso t) : t ≠ [] := by
  rintro rfl
  exact absurd h.mem_dash List.not_mem_nil

theorem WritesIso.isIsoChar (h : d.WritesIso t) : ∀ c ∈ t, isIsoChar c := by
  obtain @⟨_, s, _, _, _, _, sign, hy, -, hm, hd⟩ := h
  have front : ∀ c ∈ s, StepMatch.isIsoChar c := List.all_eq_true.1 (by cases sign <;> rfl)
  simp only [List.forall_mem_append, List.forall_mem_cons]
  exact ⟨⟨⟨front, hy.isIsoChar⟩, by decide, hm.isIsoChar⟩, by decide, hd.isIsoChar⟩

/-- A date is shown in ISO form. -/
theorem writesIso_display (d : Date) : d.WritesIso d.display.toList := by
  have year := d.year_range
  have month := d.month_range
  have sign : Sign (decide (d.year < 0)) (if d.year < 0 then "-" else "").toList := by
    split
    · rw [decide_eq_true ‹_›]
      exact .minus
    · rw [decide_eq_false ‹_›]
      exact .none
  have own : d.year = signed (decide (d.year < 0)) d.year.natAbs := by
    by_cases before : d.year < 0
    · rw [decide_eq_true before, signed, if_pos rfl]
      omega
    · rw [decide_eq_false before, signed, if_neg Bool.false_ne_true]
      omega
  have written := WritesIso.mk sign (writesNumber_padded (k := d.year.natAbs) (by decide) (by omega)) own
    (writesNumber_padded (by decide) (by omega)) (writesNumber_padded (by decide) d.day_lt)
  simpa [display, String.toList_append] using written

/-- Without a sign, the text is one that is recognised. -/
theorem WritesIso.mem_isoDates (h : d.WritesIso t) (unsigned : IsUnsigned t) : t ∈ TemporalForm.isoDates := by
  obtain @⟨_, _, year, month, day, _, sign, hy, -, hm, hd⟩ := h
  obtain ⟨c, _, opens, digit⟩ := unsigned
  obtain ⟨rfl⟩ | ⟨rfl⟩ | ⟨rfl⟩ := sign
  · refine Language.mem_mul.2 ⟨year, hy.mem_digitsLanguage, '-' :: month ++ '-' :: day, ?_, by simp⟩
    refine Language.mem_mul.2 ⟨['-'], rfl, month ++ '-' :: day, ?_, rfl⟩
    refine Language.mem_mul.2 ⟨month, hm.mem_digitsLanguage, '-' :: day, ?_, rfl⟩
    exact Language.mem_mul.2 ⟨['-'], rfl, day, hd.mem_digitsLanguage, rfl⟩
  · rw [← (List.cons.inj opens).1] at digit
    cases digit
  · rw [← (List.cons.inj opens).1] at digit
    cases digit

end Date

namespace Time

variable {v : Time}

theorem WritesIso.ne_nil (h : v.WritesIso places t) : t ≠ [] := by
  cases h <;> simp

theorem WritesIso.isIsoChar (h : v.WritesIso places t) : ∀ c ∈ t, isIsoChar c := by
  have colon : StepMatch.isIsoChar ':' := by decide
  have point : StepMatch.isIsoChar '.' := by decide
  cases h with
  | minutes hh hm =>
    simp only [List.forall_mem_append, List.forall_mem_cons]
    exact ⟨hh.isIsoChar, colon, hm.isIsoChar⟩
  | seconds hh hm hs =>
    simp only [List.forall_mem_append, List.forall_mem_cons]
    exact ⟨⟨hh.isIsoChar, colon, hm.isIsoChar⟩, colon, hs.isIsoChar⟩
  | fraction hh hm hs _ digits =>
    simp only [List.forall_mem_append, List.forall_mem_cons]
    exact ⟨⟨⟨hh.isIsoChar, colon, hm.isIsoChar⟩, colon, hs.isIsoChar⟩, point,
      fun c hc => Bool.or_eq_true_iff.2 (.inl (digits c hc))⟩

/-- A time without parts of a second is shown in ISO form. -/
theorem writesIso_display (whole : v.nano = 0) : v.WritesIso 0 v.display.toList := by
  have hour := v.hour_lt
  have minute := v.minute_lt
  have second := v.second_lt
  have written := WritesIso.seconds (v := v) (writesNumber_padded (by decide) (by omega))
    (writesNumber_padded (by decide) (by omega)) (writesNumber_padded (by decide) (by omega)) whole
  simpa [display, String.toList_append] using written

/-- To nine places, any time can be written. -/
theorem exists_writesIso (v : Time) : ∃ t, v.WritesIso 9 t := by
  have hour := v.hour_lt
  have minute := v.minute_lt
  have second := v.second_lt
  have fraction : WritesNumber 9 (padded 9 v.nano).toList v.nano := writesNumber_padded (by decide) v.nano_lt
  have ne : (padded 9 v.nano).toList ≠ [] := List.ne_nil_of_length_pos (by rw [fraction.length]; decide)
  have nano : v.nano * 10 ^ ((padded 9 v.nano).toList.take 9).length =
      digitsValue ((padded 9 v.nano).toList.take 9) * 10 ^ 9 := by
    rw [List.take_of_length_le fraction.length.le, fraction.length, fraction.value]
  have written := WritesIso.fraction (v := v) (writesNumber_padded (by decide) (by omega))
    (writesNumber_padded (by decide) (by omega)) (writesNumber_padded (by decide) (by omega)) ne fraction.digits nano
  exact ⟨_, fraction.length ▸ written⟩

/-- With at most nine places, the text is one that is recognised. -/
theorem WritesIso.mem_isoTimes (h : v.WritesIso places t) (few : places ≤ 9) : t ∈ TemporalForm.isoTimes := by
  have parts {hour minute behind : Text} (hh : WritesNumber 2 hour v.hour) (hm : WritesNumber 2 minute v.minute)
      (rest : behind ∈ (1 + {[':']} * (digitsLanguage 2 2 * (1 + {['.']} * digitsLanguage 1 9)) : TextLanguage)) :
      hour ++ ':' :: minute ++ behind ∈ TemporalForm.isoTimes := by
    refine Language.mem_mul.2 ⟨hour, hh.mem_digitsLanguage, ':' :: minute ++ behind, ?_, by simp⟩
    refine Language.mem_mul.2 ⟨[':'], rfl, minute ++ behind, ?_, rfl⟩
    exact Language.mem_mul.2 ⟨minute, hm.mem_digitsLanguage, behind, rest, rfl⟩
  have seconds {second behind : Text} (hs : WritesNumber 2 second v.second)
      (rest : behind ∈ (1 + {['.']} * digitsLanguage 1 9 : TextLanguage)) : ':' :: (second ++ behind) ∈
        (1 + {[':']} * (digitsLanguage 2 2 * (1 + {['.']} * digitsLanguage 1 9)) : TextLanguage) :=
    .inr (Language.mem_mul.2 ⟨[':'], rfl, second ++ behind,
      Language.mem_mul.2 ⟨second, hs.mem_digitsLanguage, behind, rest, rfl⟩, rfl⟩)
  cases h with
  | minutes hh hm => simpa using parts hh hm (.inl rfl)
  | seconds hh hm hs => simpa using parts hh hm (seconds hs (.inl rfl))
  | @fraction _ _ _ f hh hm hs some digits =>
    have own : f ∈ digitsLanguage 1 9 := (mem_digitsLanguage_iff (by decide)).2
      ⟨List.length_pos_of_ne_nil some, few, fun c hc => isDigit_of_isAsciiDigit (digits c hc)⟩
    simpa using parts hh hm (seconds hs (.inr (Language.mem_mul.2 ⟨['.'], rfl, f, own, rfl⟩)))

/-- A time opens with a digit. -/
theorem WritesIso.isUnsigned (h : v.WritesIso places t) : IsUnsigned t := by
  obtain ⟨hour, behind, own, rfl⟩ : ∃ hour behind, WritesNumber 2 hour v.hour ∧ t = hour ++ behind := by
    cases h with
    | minutes hh => exact ⟨_, _, hh, rfl⟩
    | seconds hh => exact ⟨_, _, hh, List.append_assoc ..⟩
    | fraction hh => exact ⟨_, _, hh, by rw [List.append_assoc, List.append_assoc]⟩
  obtain ⟨c, cs, rfl⟩ := List.exists_cons_of_ne_nil (List.ne_nil_of_length_pos (l := hour) (by rw [own.length]; decide))
  exact ⟨c, cs ++ behind, rfl, own.digits c List.mem_cons_self⟩

end Time

namespace TemporalForm

namespace WritesIso

/-- What is of ISO form is read in ISO form. -/
theorem readIso?_eq (h : form.WritesIso v places t) : form.readIso? t = some v := by
  cases h with
  | date own => exact congrArg (Option.map Value.date) (Date.readIso?_eq_some_iff.2 own)
  | time own => exact congrArg (Option.map Value.time) (Time.readIso?_eq_some_iff.2 ⟨_, own⟩)
  | @dateTime d v _ t u c date mark time =>
    -- The first such mark is the one behind the date.
    have cut : Text.splitAtFirst (t ++ c :: u) (fun c => c == 'T' || c == ' ') = some (t, u) := by
      refine Text.splitAtFirst_append_cons (fun c hc => ?_) (by obtain rfl | rfl := mark <;> rfl)
      have own := date.isIsoChar c hc
      rw [Bool.or_eq_false_iff, beq_eq_false_iff_ne, beq_eq_false_iff_ne]
      constructor <;> rintro rfl <;> cases own
    rw [readIso?, cut]
    simp only [Option.bind_eq_bind, Option.bind_some, Date.readIso?_eq_some_iff.2 date,
      Time.readIso?_eq_some_iff.2 ⟨_, time⟩]
    rfl

/-- Nothing is to be trimmed from what is of ISO form. -/
theorem trim_eq (h : form.WritesIso v places t) : t.trim = t := by
  obtain ⟨opens, closes⟩ : t.startsBlank = false ∧ t.endsBlank = false := by
    cases h with
    | date own => simpa using edges_of_isIsoChar (u := []) own.ne_nil own.isIsoChar
    | time own => simpa using edges_of_isIsoChar (u := []) own.ne_nil own.isIsoChar
    | @dateTime _ _ _ t _ c date _ time =>
      refine ⟨(edges_of_isIsoChar date.ne_nil date.isIsoChar).1, ?_⟩
      rw [List.append_cons]
      exact (edges_of_isIsoChar time.ne_nil time.isIsoChar).2
  exact Text.trim_of_ink opens closes

/-- The ISO form is read whatever the layouts are. -/
theorem read?_eq (h : form.WritesIso v places t) (l : Locale) : form.read? l t = some v :=
  read?_eq_of_mem_readers (List.mem_append_right _ (List.mem_singleton.2 rfl)) (by rw [h.trim_eq, h.readIso?_eq])

theorem parse_eq (h : form.WritesIso v places t) (name : String) (l : Locale) :
    (DataType.temporal name form).parse l t = .ok v := by
  simp only [DataType.parse, DataType.temporal, h.read?_eq]
  rfl

/-- Only what opens with a date may have a sign. -/
theorem isUnsigned (h : form.WritesIso v places t) (dated : form ≠ .time → IsUnsigned t) : IsUnsigned t := by
  cases h with
  | time own => exact own.isUnsigned
  | _ => exact dated nofun

/-- Without a sign and with at most nine places, it is recognised. -/
theorem mem_isoLanguage (h : form.WritesIso v places t) (few : places ≤ 9) (unsigned : IsUnsigned t) :
    t ∈ form.isoLanguage := by
  cases h with
  | date own => exact own.mem_isoDates unsigned
  | time own => exact own.mem_isoTimes few
  | @dateTime _ _ _ t u c date mark time =>
    have unsigned : IsUnsigned t := by
      obtain ⟨d, _, opens, digit⟩ := unsigned
      obtain ⟨d', t, rfl⟩ := List.exists_cons_of_ne_nil date.ne_nil
      exact ⟨d', t, rfl, (List.cons.inj opens).1 ▸ digit⟩
    refine Language.mem_mul.2 ⟨t, date.mem_isoDates unsigned, c :: u, ?_, rfl⟩
    refine Language.mem_mul.2 ⟨[c], ⟨c, ?_, rfl⟩, u, time.mem_isoTimes few, rfl⟩
    obtain rfl | rfl := mark <;> decide

theorem takes (h : form.WritesIso v places t) (few : places ≤ 9) (unsigned : IsUnsigned t) (l : Locale)
    (d : Regex.Dialect) : Regex.Takes d (form.regex l) t :=
  takes_iff.2 (.inr (h.mem_isoLanguage few unsigned))

end WritesIso

/-- A value without parts of a second is shown in ISO form. -/
theorem writesIso_display (own : v.kind = form.kind) (whole : v.HasWholeSeconds) :
    form.WritesIso v 0 v.display.toList := by
  cases form <;> cases v <;> try cases own
  · exact .date (Date.writesIso_display _)
  · exact .time (Time.writesIso_display whole)
  · rename_i d time
    have written := WritesIso.dateTime d.writesIso_display (.inl rfl) (Time.writesIso_display whole)
    simpa [Value.display, String.toList_append] using written

/-- The standard data type of the form. -/
def dataType : TemporalForm → DataType
  | .date => .date
  | .time => .time
  | .dateTime => .dateTime

/-- An expression with nothing but a slot for a value of the form. -/
def slot (form : TemporalForm) : Text := "\x7bx:".toList ++ form.dataType.name.toList ++ "\x7d".toList

theorem dataType_eq (form : TemporalForm) : form.dataType = .temporal form.dataType.name form := by
  cases form <;> rfl

theorem isLocalText_regex (form : TemporalForm) (l : Locale) : Regex.isLocalText (form.dataType.regex l) := by
  rw [dataType_eq]
  exact (DataType.isValueText_temporal _ form l).isLocalText

/-- The expression is compiled in every locale, and its slot is bound to the data type. -/
theorem exists_compile_slot (form : TemporalForm) (l : Locale) : ∃ m,
    Matcher.compile .standard .standard l form.slot = .ok m ∧ m.pieces = [.argument "x" form.dataType] := by
  let m : Matcher := ⟨form.slot, [.argument "x" form.dataType],
    .ofNode (.argument ("x:".toList ++ form.dataType.name.toList) 0)⟩
  have made : Matcher.ofExpression .standard .standard form.slot = .ok m := by
    cases form <;> rfl
  have readable : ∀ piece ∈ m.pieces, piece.IsReadable l :=
    List.forall_mem_singleton.2 (Piece.isReadable_argument (form.isLocalText_regex l))
  obtain ⟨p, built, -⟩ := Matcher.search_program readable []
  exact ⟨m, Matcher.compile_of_ofExpression made (by rw [built]; rfl), rfl⟩

end TemporalForm

namespace DataType

/-- In the locale, dates and times in ISO form are read exactly. -/
structure ReadsIso (form : TemporalForm) (l : Locale) : Prop where
  /-- Every value of the form can be written. -/
  writable : ∀ v, v.kind = form.kind → ∃ places ≤ 9, ∃ t, form.WritesIso v places t
  /-- What writes a value in ISO form is read as this value. -/
  reads : ∀ v places t, form.WritesIso v places t → ∀ name, (temporal name form).parse l t = .ok v
  /-- A value without parts of a second is read from what is shown for it. -/
  displayed : ∀ v, v.kind = form.kind → v.HasWholeSeconds →
    ∀ name, (temporal name form).parse l v.display.toList = .ok v
  /-- With at most nine places and without a sign before the year, if there is one, the text is taken as a
  whole, in a sentence and in a phrase. -/
  recognised : ∀ v places t, form.WritesIso v places t → places ≤ 9 → (form ≠ .time → IsUnsigned t) →
    ∀ name dialect, Regex.Takes dialect ((temporal name form).regex l) t
  /-- An expression with nothing but a slot then captures the value. -/
  captured : ∀ default, ∃ m, Matcher.compile .standard .standard default form.slot = .ok m ∧
    ∀ v places t, form.WritesIso v places t → places ≤ 9 → (form ≠ .time → IsUnsigned t) →
      ∃ result, m.matchIn l t = .ok (some result) ∧ result.arguments = [("x", .literal v)]

/-- ISO form is read in every locale. -/
theorem readsIso (form : TemporalForm) (l : Locale) : ReadsIso form l where
  writable v own := by
    cases form <;> cases v <;> try cases own
    · exact ⟨0, by decide, _, .date (Date.writesIso_display _)⟩
    · obtain ⟨t, written⟩ := Time.exists_writesIso _
      exact ⟨9, le_rfl, t, .time written⟩
    · obtain ⟨t, written⟩ := Time.exists_writesIso _
      exact ⟨9, le_rfl, _, .dateTime (Date.writesIso_display _) (.inl rfl) written⟩
  reads v places t h name := h.parse_eq name l
  displayed v own whole name := (TemporalForm.writesIso_display own whole).parse_eq name l
  recognised v places t h few dated name d := h.takes few (h.isUnsigned dated) l d
  captured default := by
    obtain ⟨m, compiled, pieces⟩ := form.exists_compile_slot default
    refine ⟨m, compiled, fun v places t h few dated => ?_⟩
    have unsigned := h.isUnsigned dated
    have plain : ∀ name, t ≠ Argument.reference name := by
      obtain ⟨c, u, rfl, digit⟩ := unsigned
      intro name e
      rw [(List.cons.inj e).1] at digit
      cases digit
    refine Matcher.exists_matchIn_of_slot pieces (form.isLocalText_regex l) ?_ plain ?_
    · rw [form.dataType_eq]
      exact h.takes few unsigned l .extended
    · rw [form.dataType_eq]
      exact h.parse_eq _ l

end DataType

end StepMatch
