import StepMatch.Proofs.DataType.Layouts

/-!
# What a layout reads

A text fits a layout if it can be cut into the parts of the layout. The regex of the layout finds such a
cut whenever there is one, and the value that is read comes from the texts of the parts alone.
-/

namespace StepMatch

open Regex (Field Cut Captures Outcome cutCaptures)

/-- The texts of the parts of a date. -/
structure DateParts where
  day : Text
  month : Text
  year : Text

/-- The texts of the parts of a time. -/
structure TimeParts where
  hour : Text
  minute : Text
  second : Option Text
  /-- The mark for the half of the day. -/
  half : Option Text

/-- The texts of the parts of a temporal value. -/
inductive TemporalParts where
  | date (x : DateParts)
  | time (y : TimeParts)
  | dateTime (x : DateParts) (y : TimeParts)

namespace DateParts

/-- The text of a part. -/
def text (x : DateParts) : DatePart → Text
  | .day => x.day
  | .month _ => x.month
  | .year => x.year

/-- The date that the parts write. -/
def read? (months : MonthNames) (x : DateParts) : Option Date := do
  let day ← readNatural? x.day
  let month ← months.readMonth? x.month
  let year ← readNatural? x.year
  Date.of? year month day

end DateParts

namespace TimeParts

/-- What is remembered of the parts. -/
def captures (y : TimeParts) : Captures :=
  [("hour".toList, y.hour), ("minute".toList, y.minute)]
    ++ (y.second.map fun w => ("second".toList, w)).toList
    ++ (y.half.map fun w => ("meridiem".toList, w)).toList

/-- The hour of the day. -/
def fullHour? (y : TimeParts) (hour : Nat) : Option Nat :=
  match y.half with
  | some half => StepMatch.fullHour? (half.head?.any fun c => c.toLower == 'p') hour
  | none => some hour

/-- The second, which is zero if it is left out. -/
def readSecond? (y : TimeParts) : Option Nat :=
  match y.second with
  | some second => readNatural? second
  | none => some 0

/-- The time that the parts write. -/
def read? (y : TimeParts) : Option Time := do
  let hour ← readNatural? y.hour
  let minute ← readNatural? y.minute
  let second ← y.readSecond?
  Time.of? (← y.fullHour? hour) minute second 0

end TimeParts

/-- The value that the parts write. -/
def TemporalParts.read? (months : MonthNames) : TemporalParts → Option Value
  | .date x => (x.read? months).map .date
  | .time y => y.read?.map .time
  | .dateTime x y => do return .dateTime (← x.read? months) (← y.read?)

/-- The text is a date in the layout, with the given parts. -/
inductive DateLayout.Fits (layout : DateLayout) (months : MonthNames) (x : DateParts) : Text → Prop
  | mk {g g' e : Text} (parts : ∀ p ∈ layout.parts, x.text p ∈ p.language months)
      (gap : Text.Alike g layout.gap) (gap' : Text.Alike g' layout.gap')
      (ending : Text.Alike e layout.ending) :
      Fits layout months x (x.text layout.first ++ g ++ x.text layout.second ++ g' ++ x.text layout.third ++ e)

/-- A part that is there or not, with something in front of it. -/
inductive IsOptional (there : Bool) (front L : TextLanguage) : Option Text → Text → Prop
  | absent (not : there = false) : IsOptional there front L none []
  | present (is : there = true) {g w : Text} (hg : g ∈ front) (hw : w ∈ L) :
      IsOptional there front L (some w) (g ++ w)

/-- The text is a time in the layout, with the given parts. -/
inductive TimeLayout.Fits (layout : TimeLayout) (y : TimeParts) : Text → Prop
  | mk {s m : Text} (hour : y.hour ∈ digitsLanguage 1 2) (minute : y.minute ∈ digitsLanguage 2 2)
      (second : IsOptional layout.seconds {[':']} (digitsLanguage 2 2) y.second s)
      (half : IsOptional layout.halfDay Regex.slack halfRegex.language y.half m) :
      Fits layout y (y.hour ++ ':' :: y.minute ++ s ++ m)

/-- The text is a value in the layout, with the given parts. -/
inductive TemporalLayout.Fits (months : MonthNames) : TemporalLayout → TemporalParts → Text → Prop
  | date {d : DateLayout} {x : DateParts} {t : Text} (h : d.Fits months x t) : Fits months (.date d) (.date x) t
  | time {d : TimeLayout} {y : TimeParts} {t : Text} (h : d.Fits y t) : Fits months (.time d) (.time y) t
  | dateTime {d : DateLayout} {d' : TimeLayout} {x : DateParts} {y : TimeParts} {t s u : Text}
      (date : d.Fits months x t) (between : s ∈ separatorLanguage) (time : d'.Fits y u) :
      Fits months (.dateTime d d') (.dateTime x y) (t ++ s ++ u)

variable {months : MonthNames} {ws : List Text} {t : Text} {o : Outcome}

namespace DateLayout

variable {layout : DateLayout} {x : DateParts}

theorem IsComplete.exists_parts (h : layout.IsComplete) (w w' w'' : Text) : ∃ x : DateParts,
    x.text layout.first = w ∧ x.text layout.second = w' ∧ x.text layout.third = w'' := by
  obtain ⟨hint, first, gap, second, gap', third, ending⟩ := layout
  revert h
  cases first <;> cases second <;> cases third <;> simp only [IsComplete, parts, List.map_cons, DatePart.name,
    DateParts.text] <;> first
    | exact fun _ => ⟨⟨_, _, _⟩, rfl, rfl, rfl⟩
    | simp

/-- Which parts there are. -/
theorem IsComplete.mem_parts (h : layout.IsComplete) :
    .day ∈ layout.parts ∧ (∃ form, .month form ∈ layout.parts) ∧ .year ∈ layout.parts := by
  obtain ⟨hint, first, gap, second, gap', third, ending⟩ := layout
  revert h
  cases first <;> cases second <;> cases third <;> simp [IsComplete, parts, DatePart.name]

/-- What is remembered of the parts. -/
def captures (layout : DateLayout) (x : DateParts) : Captures :=
  layout.parts.map fun p => (p.name.toList, x.text p)

/-- A cut along the fields gives the texts of the parts. -/
theorem exists_fits_of_cut (complete : layout.IsComplete) (cut : Cut (layout.fields months) ws) :
    ∃ x, layout.Fits months x ws.flatten ∧ cutCaptures (layout.fields months) ws = layout.captures x := by
  simp only [fields, Cut, List.forall₂_cons_left_iff, List.forall₂_nil_left_iff] at cut
  obtain ⟨w, _, hw, ⟨g, _, hg, ⟨w', _, hw', ⟨g', _, hg', ⟨w'', _, hw'', ⟨e, _, he, rfl, rfl⟩, rfl⟩, rfl⟩, rfl⟩,
    rfl⟩, rfl⟩ := cut
  obtain ⟨x, rfl, rfl, rfl⟩ := complete.exists_parts w w' w''
  have parts : ∀ p ∈ layout.parts, x.text p ∈ p.language months :=
    List.forall_mem_cons.2 ⟨hw, List.forall_mem_cons.2 ⟨hw', List.forall_mem_singleton.2 hw''⟩⟩
  have fits := Fits.mk parts hg hg' he
  exact ⟨x, by simpa using fits, rfl⟩

theorem Fits.exists_cut (h : layout.Fits months x t) :
    ∃ ws, Cut (layout.fields months) ws ∧ ws.flatten = t := by
  obtain ⟨parts, gap, gap', ending⟩ := h
  simp only [DateLayout.parts, List.forall_mem_cons] at parts
  exact ⟨[_, _, _, _, _, _], .cons parts.1 (.cons gap (.cons parts.2.1 (.cons gap' (.cons parts.2.2.1
    (.cons ending .nil))))), by simp⟩

/-- The date comes from the texts of the parts. -/
theorem dateOf?_eq (complete : layout.IsComplete) (nodup : (o.captures.map Prod.fst).Nodup)
    (own : ∀ c ∈ layout.captures x, c ∈ o.captures) : TemporalForm.dateOf? months o = x.read? months := by
  have found {p : DatePart} (hp : p ∈ layout.parts) : o.group? p.name.toList = some (x.text p) :=
    Regex.group?_of_mem nodup (own _ (List.mem_map_of_mem hp))
  obtain ⟨day, ⟨form, month⟩, year⟩ := complete.mem_parts
  have day : o.group? "day".toList = some x.day := found day
  have month : o.group? "month".toList = some x.month := found month
  have year : o.group? "year".toList = some x.year := found year
  rw [TemporalForm.dateOf?, day, month, year]
  rfl

end DateLayout

namespace TimeLayout

variable {layout : TimeLayout} {y : TimeParts}

theorem exists_isOptional_of_cut {there : Bool} {front L : TextLanguage} {name : String}
    (cut : Cut (optionalFields there front name L) ws) : ∃ w?, IsOptional there front L w? ws.flatten ∧
      cutCaptures (optionalFields there front name L) ws = (w?.map fun w => (name.toList, w)).toList := by
  rw [optionalFields] at cut ⊢
  cases there with
  | false =>
    cases cut
    exact ⟨none, .absent rfl, rfl⟩
  | true =>
    simp only [if_true, Cut, List.forall₂_cons_left_iff, List.forall₂_nil_left_iff] at cut
    obtain ⟨g, _, hg, ⟨w, _, hw, rfl, rfl⟩, rfl⟩ := cut
    exact ⟨some w, by simpa using IsOptional.present rfl hg hw, rfl⟩

theorem exists_cut_of_isOptional {there : Bool} {front L : TextLanguage} {w? : Option Text}
    (h : IsOptional there front L w? t) (name : String) :
    ∃ ws, Cut (optionalFields there front name L) ws ∧ ws.flatten = t := by
  rw [optionalFields]
  cases h with
  | absent not =>
    rw [not]
    exact ⟨[], .nil, rfl⟩
  | present is hg hw =>
    rw [is]
    exact ⟨[_, _], .cons hg (.cons hw .nil), by simp⟩

/-- A cut along the fields gives the texts of the parts. -/
theorem exists_fits_of_cut (cut : Cut layout.fields ws) :
    ∃ y, layout.Fits y ws.flatten ∧ cutCaptures layout.fields ws = y.captures := by
  rw [fields] at cut ⊢
  obtain ⟨_, vs, rfl, cut, half⟩ := Regex.cut_append_iff.1 cut
  obtain ⟨us, us', rfl, cut, second⟩ := Regex.cut_append_iff.1 cut
  obtain ⟨m?, half, marked⟩ := exists_isOptional_of_cut half
  obtain ⟨s?, second, seconds⟩ := exists_isOptional_of_cut second
  rw [Regex.cutCaptures_append (Regex.cut_append_iff.2 ⟨us, us', rfl, cut, by assumption⟩),
    Regex.cutCaptures_append cut, marked, seconds]
  simp only [Cut, List.forall₂_cons_left_iff, List.forall₂_nil_left_iff] at cut
  obtain ⟨h, _, hh, ⟨c, _, hc, ⟨n, _, hn, rfl, rfl⟩, rfl⟩, rfl⟩ := cut
  obtain rfl : c = [':'] := hc
  have fits := Fits.mk (y := ⟨h, n, s?, m?⟩) hh hn second half
  exact ⟨_, by simpa using fits, rfl⟩

theorem Fits.exists_cut (h : layout.Fits y t) : ∃ ws, Cut layout.fields ws ∧ ws.flatten = t := by
  obtain ⟨hour, minute, second, half⟩ := h
  obtain ⟨us, cutSecond, rfl⟩ := exists_cut_of_isOptional second "second"
  obtain ⟨vs, cutHalf, rfl⟩ := exists_cut_of_isOptional half "meridiem"
  have front : Cut [⟨some "hour".toList, digitsLanguage 1 2⟩, ⟨none, {[':']}⟩,
      ⟨some "minute".toList, digitsLanguage 2 2⟩] [y.hour, [':'], y.minute] :=
    .cons hour (.cons rfl (.cons minute .nil))
  exact ⟨_, Regex.cut_append_iff.2 ⟨_, vs, rfl, Regex.cut_append_iff.2 ⟨_, us, rfl, front, cutSecond⟩, cutHalf⟩,
    by simp⟩

/-- The time comes from the texts of the parts. -/
theorem timeOf?_eq {front : Captures} (nodup : (o.captures.map Prod.fst).Nodup)
    (own : o.captures = front ++ y.captures)
    (apart : ∀ n ∈ ["second".toList, "meridiem".toList], ∀ w, (n, w) ∉ front) :
    TemporalForm.timeOf? o = y.read? := by
  obtain ⟨h, n, s?, m?⟩ := y
  have found {name w : Text} (mem : (name, w) ∈ TimeParts.captures ⟨h, n, s?, m?⟩) : o.group? name = some w :=
    Regex.group?_of_mem nodup (own ▸ List.mem_append_right _ mem)
  have lost (name : Text) (foreign : name ∈ ["second".toList, "meridiem".toList])
      (missing : ∀ w, (name, w) ∉ TimeParts.captures ⟨h, n, s?, m?⟩) : o.group? name = none :=
    Regex.group?_eq_none fun w mem => by
      rw [own] at mem
      exact (List.mem_append.1 mem).elim (apart name foreign w) (missing w)
  have hour : o.group? "hour".toList = some h := found (by simp [TimeParts.captures])
  have minute : o.group? "minute".toList = some n := found (by simp [TimeParts.captures])
  have second : o.group? "second".toList = s? := by
    cases s? with
    | some w => exact found (by simp [TimeParts.captures])
    | none => exact lost _ (by simp) (by cases m? <;> simp [TimeParts.captures])
  have half : o.group? "meridiem".toList = m? := by
    cases m? with
    | some w => exact found (by simp [TimeParts.captures])
    | none => exact lost _ (by simp) (by cases s? <;> simp [TimeParts.captures])
  rw [TemporalForm.timeOf?, hour, minute, second, half]
  cases s? <;> cases m? <;> rfl

end TimeLayout

namespace TemporalLayout

variable {layout : TemporalLayout} {p : TemporalParts}

/-- What is written in the layout. -/
def form : TemporalLayout → TemporalForm
  | .date _ => .date
  | .time _ => .time
  | .dateTime .. => .dateTime

theorem nodup_captures (complete : layout.IsComplete) (cut : Cut (layout.fields months) ws)
    (own : o.captures = cutCaptures (layout.fields months) ws) : (o.captures.map Prod.fst).Nodup := by
  obtain ⟨zip, length⟩ := Regex.cutCaptures_eq_zip cut
  rw [own, zip, List.map_fst_zip length.ge]
  exact complete.nodup_names

/-- A cut along the fields gives the texts of the parts, and the value comes from these. -/
theorem exists_fits_of_cut (complete : layout.IsComplete) (cut : Cut (layout.fields months) ws) :
    ∃ p, layout.Fits months p ws.flatten ∧ ∀ o : Outcome,
      o.captures = cutCaptures (layout.fields months) ws → layout.form.valueOf? months o = p.read? months := by
  have nodup (o : Outcome) (own : o.captures = cutCaptures (layout.fields months) ws) :=
    nodup_captures complete cut own
  cases layout with
  | date d =>
    obtain ⟨x, fits, captures⟩ := DateLayout.exists_fits_of_cut complete cut
    refine ⟨.date x, .date fits, fun o own => ?_⟩
    rw [form, TemporalForm.valueOf?, DateLayout.dateOf?_eq complete (nodup o own) fun c hc => by
      rwa [own, fields, captures]]
    rfl
  | time d =>
    obtain ⟨y, fits, captures⟩ := TimeLayout.exists_fits_of_cut cut
    refine ⟨.time y, .time fits, fun o own => ?_⟩
    have whole : o.captures = [] ++ y.captures := own.trans captures
    rw [form, TemporalForm.valueOf?, TimeLayout.timeOf?_eq (nodup o own) whole (by simp)]
    rfl
  | dateTime d d' =>
    obtain ⟨_, vs, rfl, front, time⟩ := Regex.cut_append_iff.1 cut
    obtain ⟨us, us', rfl, date, between⟩ := Regex.cut_append_iff.1 front
    obtain ⟨x, fits, captures⟩ := DateLayout.exists_fits_of_cut complete date
    obtain ⟨y, fits', captures'⟩ := TimeLayout.exists_fits_of_cut time
    obtain ⟨s, _, hs, nothing, rfl⟩ := List.forall₂_cons_left_iff.1 between
    cases nothing
    refine ⟨.dateTime x y, by simpa using Fits.dateTime fits hs fits', fun o own => ?_⟩
    have distinct := nodup o own
    rw [fields, Regex.cutCaptures_append front, Regex.cutCaptures_append date, captures, captures'] at own
    have foreign : ∀ n ∈ ["second".toList, "meridiem".toList], ∀ w,
        (n, w) ∉ d.captures x ++ cutCaptures [⟨none, separatorLanguage⟩] [s] := by
      intro n hn w mem
      obtain ⟨p, -, same⟩ := List.mem_map.1 ((List.mem_append.1 mem).resolve_right List.not_mem_nil)
      obtain rfl := congrArg Prod.fst same
      revert hn
      cases p <;> simp [DatePart.name]
    rw [form, TemporalForm.valueOf?, TimeLayout.timeOf?_eq distinct own foreign,
      DateLayout.dateOf?_eq complete distinct fun c hc => by
        rw [own]
        exact List.mem_append_left _ (List.mem_append_left _ hc)]
    rfl

theorem Fits.exists_cut (h : layout.Fits months p t) :
    ∃ ws, Cut (layout.fields months) ws ∧ ws.flatten = t := by
  cases h with
  | date fits => exact fits.exists_cut
  | time fits => exact fits.exists_cut
  | dateTime date between time =>
    obtain ⟨us, cut, rfl⟩ := date.exists_cut
    obtain ⟨vs, cut', rfl⟩ := time.exists_cut
    exact ⟨us ++ [_] ++ vs, Regex.cut_append_iff.2 ⟨_, _, rfl, Regex.cut_append_iff.2
      ⟨_, _, rfl, cut, .cons between .nil⟩, cut'⟩, by simp⟩

/-- The regex of a layout with names matches the texts that fit the layout, and however it does, the value
comes from the parts of the text. -/
theorem exists_regex (filled : months.AreFilled) (complete : layout.IsComplete) : ∃ r : Regex,
    Regex.read? .plain (Regex.anchored (layout.regex true months)) = some r ∧ ∀ t,
      (∀ o ∈ r.outcomes ⟨0, t⟩, ∃ p, layout.Fits months p t ∧ layout.form.valueOf? months o = p.read? months) ∧
      r.search t = (r.outcomes ⟨0, t⟩).head? ∧ ∀ p, layout.Fits months p t → (r.search t).isSome := by
  obtain ⟨items, read, own⟩ := (layout.laysNew .plain filled complete).read?_anchored complete.nodup_names
  refine ⟨_, read, fun t => ⟨fun o ho => ?_, Regex.search_between_eq_head? own t, fun p fits => ?_⟩⟩
  · obtain ⟨ws, cut, rfl, captures⟩ := Regex.cut_of_mem_outcomes own ho
    obtain ⟨p, fits, value⟩ := exists_fits_of_cut complete cut
    exact ⟨p, fits, value o captures⟩
  · obtain ⟨ws, cut, whole⟩ := fits.exists_cut
    rw [Option.isSome_iff_ne_none]
    exact fun none => (Regex.search_between own t).2 none ws cut whole

/-- What a layout reads comes from a way to fit it. -/
theorem exists_fits_of_readLayout? (filled : months.AreFilled) (complete : layout.IsComplete) {v : Value}
    (h : layout.form.readLayout? months t layout = some v) :
    ∃ p, layout.Fits months p t ∧ p.read? months = some v := by
  obtain ⟨r, read, ways⟩ := exists_regex filled complete
  rw [TemporalForm.readLayout?, read, Option.bind_eq_bind, Option.bind_some] at h
  obtain ⟨o, found, value⟩ := Option.bind_eq_some_iff.1 h
  rw [(ways t).2.1] at found
  obtain ⟨p, fits, own⟩ := (ways t).1 o (List.mem_of_mem_head? found)
  exact ⟨p, fits, own ▸ value⟩

/-- A text that fits a layout is read by it, as one that fits it. -/
theorem Fits.exists_readLayout?_eq (h : layout.Fits months p t) (filled : months.AreFilled)
    (complete : layout.IsComplete) :
    ∃ q, layout.Fits months q t ∧ layout.form.readLayout? months t layout = q.read? months := by
  obtain ⟨r, read, ways⟩ := exists_regex filled complete
  obtain ⟨o, found⟩ := Option.isSome_iff_exists.1 ((ways t).2.2 p h)
  obtain ⟨q, fits, own⟩ := (ways t).1 o (List.mem_of_mem_head? ((ways t).2.1 ▸ found))
  refine ⟨q, fits, ?_⟩
  rw [TemporalForm.readLayout?, read, Option.bind_eq_bind, Option.bind_some, found, ← own]
  rfl

end TemporalLayout

end StepMatch
