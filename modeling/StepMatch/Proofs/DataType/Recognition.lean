import StepMatch.Proofs.DataType.Uniqueness

/-!
# What is recognised as a date or a time

In a sentence, the regex of a temporal type takes the texts that fit a layout of the locale and those of ISO
form, in either dialect.
-/

namespace StepMatch

open Regex (Dialect Writes WritesBody Field Cut)

variable {d : Dialect} {l : Locale} {form : TemporalForm} {t : Text}

/-- What is in languages one after the other can be cut along fields of these languages. -/
theorem exists_cut_of_mem_prod {fs : List Field} (h : t ∈ (fs.map Field.language).prod) :
    ∃ ws, Cut fs ws ∧ ws.flatten = t := by
  induction fs generalizing t with
  | nil => exact ⟨[], .nil, h.symm⟩
  | cons f fs ih =>
    rw [List.map_cons, List.prod_cons] at h
    obtain ⟨w, own, u, later, rfl⟩ := Language.mem_mul.1 h
    obtain ⟨ws, cut, rfl⟩ := ih later
    exact ⟨w :: ws, .cons own cut, rfl⟩

theorem TemporalLayout.mem_prod_iff {layout : TemporalLayout} {months : MonthNames}
    (complete : layout.IsComplete) :
    t ∈ ((layout.fields months).map Field.language).prod ↔ ∃ p, layout.Fits months p t := by
  constructor
  · intro h
    obtain ⟨ws, cut, rfl⟩ := exists_cut_of_mem_prod h
    obtain ⟨p, fits, -⟩ := exists_fits_of_cut complete cut
    exact ⟨p, fits⟩
  · rintro ⟨p, fits⟩
    obtain ⟨ws, cut, rfl⟩ := fits.exists_cut
    exact mem_prod_of_cut cut

namespace TemporalForm

/-- Dates of ISO form without a sign, with digits of any script. -/
def isoDates : TextLanguage :=
  digitsLanguage 4 4 * ({['-']} * (digitsLanguage 2 2 * ({['-']} * digitsLanguage 2 2)))

/-- Times of ISO form, with up to nine digits behind the point. -/
def isoTimes : TextLanguage :=
  digitsLanguage 2 2 * ({[':']} * (digitsLanguage 2 2 *
    (1 + {[':']} * (digitsLanguage 2 2 * (1 + {['.']} * digitsLanguage 1 9)))))

/-- What is recognised as ISO form. -/
def isoLanguage : TemporalForm → TextLanguage
  | .date => isoDates
  | .time => isoTimes
  | .dateTime => isoDates * (Regex.ofSet (.union (.single 'T') (.single ' ')) * isoTimes)

theorem writes_isoDateRegex (d : Dialect) : Writes true d isoDateRegex isoDates :=
  (writes_four d).append ((writesAtom_dash d).writes.append ((writes_two d).append
    ((writesAtom_dash d).writes.append (writes_two d))))

theorem writes_isoTimeRegex (d : Dialect) : Writes true d isoTimeRegex isoTimes := by
  have colon : Writes true d [':'] {[':']} := (writesAtom_colon d).writes
  have point : Writes true d (Regex.escapeChar '.') {['.']} := (Regex.writesAtom_escapeChar d '.').writes
  have fraction : Writes true d _ (1 + {['.']} * digitsLanguage 1 9) :=
    (point.append (Regex.writes_digitsUpTo d (by decide) (by decide))).body.grouped.optional
  have second : Writes true d _ (1 + {[':']} * (digitsLanguage 2 2 * (1 + {['.']} * digitsLanguage 1 9))) :=
    (colon.append ((writes_two d).append fraction)).body.grouped.optional
  have time := (writes_two d).append (colon.append ((writes_two d).append second))
  simpa [isoTimeRegex, isoTimes, Regex.escapeChar, Regex.isMeta] using time

theorem writes_isoRegex (d : Dialect) (form : TemporalForm) : Writes true d form.isoRegex form.isoLanguage := by
  cases form with
  | date => exact writes_isoDateRegex d
  | time => exact writes_isoTimeRegex d
  | dateTime =>
    rw [isoRegex, List.append_assoc]
    exact (writes_isoDateRegex d).append ((writesAtom_timeMark d).writes.append (writes_isoTimeRegex d))

/-- In a sentence, the type takes what fits a layout and what is of ISO form. -/
theorem takes_iff : Regex.Takes d (form.regex l) t ↔
    (∃ layout ∈ form.layouts l, ∃ p, layout.Fits l.monthNames p t) ∨ t ∈ form.isoLanguage := by
  let text : Option TemporalLayout → Text := fun layout? =>
    layout?.elim form.isoRegex fun layout => layout.regex false l.monthNames
  let language : Option TemporalLayout → TextLanguage := fun layout? =>
    layout?.elim form.isoLanguage fun layout => ((layout.fields l.monthNames).map Field.language).prod
  have body : WritesBody false d (form.regex l)
      (((form.layouts l).map some ++ [none]).map language).sum := by
    have each : ∀ layout? ∈ (form.layouts l).map some ++ [none], Writes false d (text layout?) (language layout?) := by
      rintro (_ | layout) -
      · exact (writes_isoRegex d form).loosen
      · exact layout.writes d l.readsDates.filled
    have row := writesBody_alternatives (by simp) each
    rwa [List.map_append, List.map_map] at row
  rw [Regex.takes_iff body.writes_grouped, mem_sum_iff]
  have fits {layout : TemporalLayout} (h : layout ∈ form.layouts l) :
      t ∈ language (some layout) ↔ ∃ p, layout.Fits l.monthNames p t :=
    TemporalLayout.mem_prod_iff (form_and_isComplete h).2
  simp only [List.map_append, List.map_map, List.mem_append, List.mem_map, Function.comp_apply, List.map_cons,
    List.map_nil, List.mem_singleton, or_and_right, exists_or, exists_eq_left]
  refine or_congr ?_ Iff.rfl
  constructor
  · rintro ⟨_, ⟨layout, h, rfl⟩, mem⟩
    exact ⟨layout, h, (fits h).1 mem⟩
  · rintro ⟨layout, h, mem⟩
    exact ⟨_, ⟨layout, h, rfl⟩, (fits h).2 mem⟩

/-- A part of a date opens with a digit or a letter. -/
theorem exists_ink_of_mem_part {p : DatePart} (h : t ∈ p.language l.monthNames) :
    ∃ c w, t = c :: w ∧ isBlank c = false := by
  cases numeric : p.isNumeric
  · obtain ⟨names, inked, mem⟩ : ∃ names, AreInked names ∧ t ∈ monthsLanguage names := by
      obtain _ | (_ | _ | _) | _ := p
      · cases numeric
      · cases numeric
      · exact ⟨_, l.areInked_monthNames.2, h⟩
      · exact ⟨_, l.areInked_monthNames.1, h⟩
      · cases numeric
    obtain ⟨name, hn, same⟩ := exists_name_of_mem mem
    have ne : t ≠ [] := by
      rintro rfl
      rw [List.map_nil, eq_comm, List.map_eq_nil_iff] at same
      exact (inked.2 name hn).1 same
    obtain ⟨c, w, rfl⟩ := List.exists_cons_of_ne_nil ne
    have mark := (DatePart.marks_of_not_isNumeric l.readsDates.lettered numeric h c List.mem_cons_self).1
    exact ⟨c, w, rfl, (isMark_iff.1 mark).2.1⟩
  · obtain ⟨ne, digits⟩ := DatePart.digits_of_isNumeric numeric h
    obtain ⟨c, w, rfl⟩ := List.exists_cons_of_ne_nil ne
    exact ⟨c, w, rfl, isBlank_eq_false_of_isDigit (digits c List.mem_cons_self)⟩

theorem exists_ink_of_fits_date {d : DateLayout} {x : DateParts} (h : d.Fits l.monthNames x t) :
    ∃ c w, t = c :: w ∧ isBlank c = false := by
  obtain ⟨parts, -, -, -⟩ := h
  have own := parts d.first List.mem_cons_self
  suffices filled : ∃ c w, x.text d.first = c :: w ∧ isBlank c = false by
    obtain ⟨c, w, same, ink⟩ := filled
    exact ⟨c, _, by rw [same]; rfl, ink⟩
  exact exists_ink_of_mem_part own

/-- What a layout takes opens with a digit or a letter. -/
theorem startsBlank_of_fits {layout : TemporalLayout} {p : TemporalParts} (h : layout.Fits l.monthNames p t) :
    t.startsBlank = false := by
  cases h with
  | date fits =>
    obtain ⟨c, w, rfl, ink⟩ := exists_ink_of_fits_date fits
    simpa [Text.startsBlank] using ink
  | time fits =>
    obtain ⟨hour, -, -, -⟩ := fits
    obtain ⟨ne, digits⟩ := digits_of_mem (by decide) (by decide) hour
    obtain ⟨c, w, same⟩ := List.exists_cons_of_ne_nil ne
    simp [same, Text.startsBlank, isBlank_eq_false_of_isDigit (digits c (same ▸ List.mem_cons_self))]
  | dateTime fits =>
    obtain ⟨c, w, rfl, ink⟩ := exists_ink_of_fits_date fits
    simpa [Text.startsBlank] using ink

/-- Trimming leaves what is recognised by a layout as it is. -/
theorem trim_of_fits {layout : TemporalLayout} {p : TemporalParts} (mem : layout ∈ form.layouts l)
    (h : layout.Fits l.monthNames p t) : t.trim = t := by
  obtain ⟨L, shared, closes⟩ := DataType.isValueText_temporal form.kind.name form l
  have accepted : t ∈ Regex.accepted (form.regex l) := takes_iff.2 (.inl ⟨layout, mem, p, h⟩)
  exact Text.trim_of_ink (startsBlank_of_fits h) (closes t (shared.accepted_eq ▸ accepted)).2

end TemporalForm

end StepMatch
