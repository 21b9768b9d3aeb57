import StepMatch.Proofs.DataType.Uniqueness
import StepMatch.Proofs.Value.Iso

/-!
# No text has two readings

In a locale, the layouts of a form and the ISO form are tried one after the other. All that read a text read
the same value: layouts cut the text into the same parts, dates of ISO form have dashes where those of
layouts have none, and times of ISO form are cut as a layout cuts them. So the order does not matter.
-/

namespace StepMatch

variable {l : Locale} {form : TemporalForm} {layout : TemporalLayout} {p : TemporalParts} {t : Text} {v w : Value}

theorem Date.WritesIso.mem_dash {d : Date} (h : d.WritesIso t) : '-' ∈ t := by
  obtain ⟨⟩ := h
  simp

theorem WritesNumber.mem_digitsLanguage {width k : Nat} {u : Text} (h : WritesNumber width u k) :
    u ∈ digitsLanguage width width :=
  (mem_digitsLanguage_iff le_rfl).2 ⟨h.length.ge, h.length.le, fun c hc => isDigit_of_isAsciiDigit (h.digits c hc)⟩

/-- A time of ISO form that fits a layout is cut into the same parts by both. -/
theorem Time.WritesIso.read?_eq {time : Time} {places : Nat} (h : time.WritesIso places t) {layout : TimeLayout} {y : TimeParts}
    (fits : layout.Fits y t) : y.read? = some time := by
  have hours {w : Text} {k : Nat} (own : WritesNumber 2 w k) : ∀ c ∈ w, isDigit c :=
    fun c hc => isDigit_of_isAsciiDigit (own.digits c hc)
  have whole : y.half = none → y.readSecond? = some time.second → time.nano = 0 →
      WritesNumber 2 y.hour time.hour → WritesNumber 2 y.minute time.minute → y.read? = some time := by
    intro half second nano hour minute
    rw [TimeParts.read?, hour.readNatural? (by decide), minute.readNatural? (by decide), second]
    simp only [Option.bind_eq_bind, Option.bind_some, TimeParts.fullHour?, half]
    rw [← nano, Time.of?_parts]
  have noHalf {there : Bool} {m? : Option Text} (half : IsOptional there Regex.slack halfRegex.language m? []) :
      m? = none := half.eq_of_half (show IsOptional false _ _ none [] from .absent rfl)
  cases h with
  | @minutes hour minute hh hm second nano =>
    have cut : layout.Fits y (hour ++ ':' :: minute ++ [] ++ []) := by simpa using fits
    obtain ⟨rfl, rfl, seconds, half⟩ := cut.parts_eq (hours hh) hm.length
      (show IsOptional false _ _ none [] from .absent rfl) (by simp)
    exact whole (noHalf half) (by rw [TimeParts.readSecond?, seconds, second]) nano hh hm
  | @seconds hour minute second hh hm hs nano =>
    have cut : layout.Fits y (hour ++ ':' :: minute ++ ([':'] ++ second) ++ []) := by simpa using fits
    obtain ⟨rfl, rfl, seconds, half⟩ := cut.parts_eq (hours hh) hm.length
      (show IsOptional true _ _ (some second) _ from .present rfl rfl hs.mem_digitsLanguage) (by simp)
    exact whole (noHalf half) (by rw [TimeParts.readSecond?, seconds]; exact hs.readNatural? (by decide)) nano hh hm
  | @fraction hour minute second f hh hm hs =>
    -- Behind the seconds of a layout no point follows.
    have cut : layout.Fits y (hour ++ ':' :: minute ++ ([':'] ++ second) ++ '.' :: f) := by simpa using fits
    obtain ⟨-, -, -, half⟩ := cut.parts_eq (hours hh) hm.length
      (show IsOptional true _ _ (some second) _ from .present rfl rfl hs.mem_digitsLanguage) (by simp)
    exact absurd rfl half.open_of_half.2.2

namespace TemporalForm

/-- No date in a layout has a dash, and no time. -/
theorem not_mem_dash (h : layout ∈ form.layouts l) (fits : layout.Fits l.monthNames p t) (dated : form ≠ .time) :
    '-' ∉ t := by
  have reads := l.readsDates
  have quiet {d : DateLayout} (hd : d ∈ l.dateLayouts) {x : DateParts} {u : Text} (own : d.Fits l.monthNames x u) :
      '-' ∉ u := fun mem => absurd (own.isQuiet (reads.clear d hd) reads.lettered _ mem) (by decide)
  cases form with
  | date =>
    obtain ⟨d, hd, rfl⟩ := List.mem_map.1 h
    obtain ⟨own⟩ := fits
    exact quiet hd own
  | time => exact absurd rfl dated
  | dateTime =>
    obtain ⟨d, hd, h⟩ := List.mem_flatMap.1 h
    obtain ⟨d', -, rfl⟩ := List.mem_map.1 h
    obtain ⟨⟩ | ⟨⟩ | ⟨own, between, time⟩ := fits
    have apart : '-' ∉ _ := fun mem => absurd ((separator_facts between).2.2.2 _ mem) (by decide)
    simp only [List.mem_append, not_or]
    exact ⟨⟨quiet hd own, apart⟩, time.not_mem_dash⟩

/-- A layout that cuts a text of ISO form reads the same from it. -/
theorem read?_eq_of_readIso? (h : layout ∈ form.layouts l) (fits : layout.Fits l.monthNames p t)
    (iso : form.readIso? t = some v) : p.read? l.monthNames = some v := by
  have dash (dated : form ≠ .time) : '-' ∉ t := not_mem_dash h fits dated
  cases form with
  | date =>
    obtain ⟨d, read, -⟩ := Option.map_eq_some_iff.1 iso
    exact absurd (Date.readIso?_eq_some_iff.1 read).mem_dash (dash nofun)
  | time =>
    obtain ⟨time, read, rfl⟩ := Option.map_eq_some_iff.1 iso
    obtain ⟨d, -, rfl⟩ := List.mem_map.1 h
    obtain ⟨⟩ | ⟨own⟩ := fits
    obtain ⟨places, written⟩ := Time.readIso?_eq_some_iff.1 read
    exact congrArg (Option.map Value.time) (written.read?_eq own)
  | dateTime =>
    simp only [readIso?, Option.bind_eq_bind, Option.bind_eq_some_iff, Prod.exists] at iso
    obtain ⟨before, after, cut, d, read, -⟩ := iso
    obtain ⟨c, -, rfl, -⟩ := Text.eq_append_of_splitAtFirst cut
    exact absurd (List.mem_append_left _ (Date.readIso?_eq_some_iff.1 read).mem_dash) (dash nofun)

/-- What is tried for a text, in order. -/
def readers (form : TemporalForm) (l : Locale) : List (Text → Option Value) :=
  (form.layouts l).map (fun layout t => form.readLayout? l.monthNames t layout) ++ [form.readIso?]

/-- All readers that read a text read the same value. -/
theorem readers_agree {r r' : Text → Option Value} (hr : r ∈ form.readers l) (hr' : r' ∈ form.readers l)
    (hv : r t = some v) (hw : r' t = some w) : v = w := by
  have filled := l.readsDates.filled
  have parts {layout : TemporalLayout} (h : layout ∈ form.layouts l) {v : Value}
      (read : form.readLayout? l.monthNames t layout = some v) :
      ∃ p, layout.Fits l.monthNames p t ∧ p.read? l.monthNames = some v := by
    obtain ⟨own, complete⟩ := form_and_isComplete h
    exact TemporalLayout.exists_fits_of_readLayout? filled complete (own ▸ read)
  have iso {layout : TemporalLayout} (h : layout ∈ form.layouts l) {v w : Value}
      (read : form.readLayout? l.monthNames t layout = some v) (read' : form.readIso? t = some w) : v = w := by
    obtain ⟨p, fits, own⟩ := parts h read
    exact Option.some.inj (own.symm.trans (read?_eq_of_readIso? h fits read'))
  obtain laid | last := List.mem_append.1 hr
  · obtain ⟨layout, h, rfl⟩ := List.mem_map.1 laid
    obtain laid' | last' := List.mem_append.1 hr'
    · obtain ⟨layout', h', rfl⟩ := List.mem_map.1 laid'
      obtain ⟨p, fits, own⟩ := parts h hv
      obtain ⟨q, fits', own'⟩ := parts h' hw
      obtain rfl := unique_fits h h' fits fits'
      exact Option.some.inj (own.symm.trans own')
    · rw [List.mem_singleton.1 last'] at hw
      exact iso h hv hw
  · rw [List.mem_singleton.1 last] at hv
    obtain laid' | last' := List.mem_append.1 hr'
    · obtain ⟨layout', h', rfl⟩ := List.mem_map.1 laid'
      exact (iso h' hw hv).symm
    · rw [List.mem_singleton.1 last'] at hw
      exact Option.some.inj (hv.symm.trans hw)

theorem read?_eq_findSome? (form : TemporalForm) (l : Locale) (t : Text) :
    form.read? l t = (form.readers l).findSome? fun r => r t.trim := by
  have last : form.readIso? t.trim = [form.readIso?].findSome? fun r => r t.trim := by simp
  rw [readers, List.findSome?_append, List.findSome?_map, read?, Option.orElse_eq_orElse, Option.orElse_eq_or, last]
  rfl

/-- A value that some reader reads is the one that is read. -/
theorem read?_eq_of_mem_readers {r : Text → Option Value} (hr : r ∈ form.readers l) (hv : r t.trim = some v) :
    form.read? l t = some v := by
  rw [read?_eq_findSome?]
  cases found : (form.readers l).findSome? fun r => r t.trim with
  | none =>
    rw [List.findSome?_eq_none_iff.1 found r hr] at hv
    cases hv
  | some w =>
    obtain ⟨r', hr', hw⟩ := List.exists_of_findSome?_eq_some found
    rw [readers_agree hr' hr hw hv]

/-- However a layout's regex matches a text, what it finds is what the layout reads. -/
theorem exists_regex_reading (h : layout ∈ form.layouts l) : ∃ r : Regex,
    Regex.read? .plain (Regex.anchored (layout.regex true l.monthNames)) = some r ∧
      ∀ t, ∀ o ∈ r.outcomes ⟨0, t⟩,
        form.valueOf? l.monthNames o = form.readLayout? l.monthNames t layout := by
  obtain ⟨rfl, complete⟩ := form_and_isComplete h
  obtain ⟨r, read, ways⟩ := TemporalLayout.exists_regex l.readsDates.filled complete
  refine ⟨r, read, fun t o ho => ?_⟩
  obtain ⟨p, fits, value⟩ := (ways t).1 o ho
  obtain ⟨q, fits', reads⟩ := fits.exists_readLayout?_eq l.readsDates.filled complete
  rw [value, reads, unique_fits h h fits fits']

end TemporalForm

/-- Readers with the same results in one order and in another find the same, if they agree. -/
theorem findSome?_eq_of_perm {α β : Type} {f : α → Option β} {as bs : List α} (perm : as.Perm bs)
    (agree : ∀ a ∈ bs, ∀ b ∈ bs, ∀ v w, f a = some v → f b = some w → v = w) :
    as.findSome? f = bs.findSome? f := by
  cases found : bs.findSome? f with
  | none => exact List.findSome?_eq_none_iff.2 fun a ha => List.findSome?_eq_none_iff.1 found a (perm.subset ha)
  | some v =>
    obtain ⟨b, hb, hv⟩ := List.exists_of_findSome?_eq_some found
    cases found' : as.findSome? f with
    | none =>
      rw [List.findSome?_eq_none_iff.1 found' b (perm.symm.subset hb)] at hv
      cases hv
    | some w =>
      obtain ⟨a, ha, hw⟩ := List.exists_of_findSome?_eq_some found'
      rw [agree a (perm.subset ha) b hb w v hw hv]

namespace DataType

/-- A data type of temporal values that tries the given readers, in the given order. -/
def temporalBy (name : String) (form : TemporalForm) (readers : List (Text → Option Value)) : DataType :=
  { temporal name form with
    read := fun _ t =>
      match readers.findSome? fun r => r t.trim with
      | some v => .ok v
      | none => .error ("not a valid " ++ form.kind.name) }

/-- In the locale no text has two readings, as a value of the form. -/
structure ReadsOneWay (form : TemporalForm) (l : Locale) : Prop where
  /-- All layouts that read a text, and the ISO form if it reads the text, give one value. -/
  agree : ∀ t, ∀ r ∈ form.readers l, ∀ r' ∈ form.readers l, ∀ v w, r t = some v → r' t = some w → v = w
  /-- In whatever way a layout matches, it gives the same. -/
  everyMatch : ∀ layout ∈ form.layouts l, ∃ r : Regex,
    Regex.read? .plain (Regex.anchored (layout.regex true l.monthNames)) = some r ∧
      ∀ t, ∀ o ∈ r.outcomes ⟨0, t⟩,
        form.valueOf? l.monthNames o = form.readLayout? l.monthNames t layout
  /-- Any order of layouts and ISO form gives the same results, faults included. -/
  inAnyOrder : ∀ readers, readers.Perm (form.readers l) → ∀ name t,
    (temporalBy name form readers).parse l t = (temporal name form).parse l t

/-- No text has two readings. -/
theorem readsOneWay (form : TemporalForm) (l : Locale) : ReadsOneWay form l where
  agree t r hr r' hr' v w hv hw := TemporalForm.readers_agree hr hr' hv hw
  everyMatch layout h := TemporalForm.exists_regex_reading h
  inAnyOrder readers perm name t := by
    have same : readers.findSome? (fun r => r t.trim) = form.read? l t := by
      rw [TemporalForm.read?_eq_findSome?]
      exact findSome?_eq_of_perm perm fun r hr r' hr' v w hv hw => TemporalForm.readers_agree hr hr' hv hw
    simp only [parse, temporalBy, same]
    rfl

end DataType

end StepMatch
