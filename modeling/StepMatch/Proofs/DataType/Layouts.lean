import StepMatch.Proofs.Assertion.Phrases
import StepMatch.Proofs.DataType.Standard
import StepMatch.Proofs.Regex.NamedRows

/-!
# What layouts take

The regex of a layout is a row of parts with something between them. With names it lays out a field for
each part, without names it writes the texts that can be cut along the same fields.
-/

namespace StepMatch

open Regex (Dialect Writes WritesBody Embeds LaysNew Field Cut anyCase)

variable {d : Dialect} {t u : Text}

section Gaps

theorem gapRegex_true (t : Text) : gapRegex true t = gapRegex false t.trimLeft := by
  induction t with
  | nil => rfl
  | cons c t ih =>
    rw [gapRegex]
    split
    · rename_i blank
      rw [if_pos rfl, List.nil_append, ih, Text.trimLeft, Text.trimLeft, List.dropWhile_cons_of_pos blank]
    · rename_i ink
      rw [Text.trimLeft, List.dropWhile_cons_of_neg ink, gapRegex, if_neg ink]

/-- Between parts stands what differs from the text of the layout in white space alone. -/
def gapLanguage (t : Text) : TextLanguage := {w | Text.Alike w t}

theorem gapLanguage_append (apart : (t.endsBlank && u.startsBlank) = false) :
    gapLanguage (t ++ u) = gapLanguage t * gapLanguage u := by
  ext w
  rw [Language.mem_mul]
  constructor
  · intro alike
    obtain ⟨x, y, rfl, own, later⟩ := Text.Alike.exists_append apart alike
    exact ⟨x, own, y, later, rfl⟩
  · rintro ⟨x, own, y, later, rfl⟩
    exact Text.Alike.append own later

theorem gapLanguage_blanks (blank : ∀ c ∈ t, isBlank c) (ne : t ≠ []) : gapLanguage t = Regex.spaces := by
  ext w
  constructor
  · intro alike
    have none : Text.words w = [] := (Text.Alike.words_eq alike).trans (Text.words_of_blank blank)
    exact ⟨fun e => ne ((Text.Alike.eq_nil_iff alike).1 e), Text.isBlank_of_words_eq_nil none⟩
  · exact fun ⟨ne', blank'⟩ => Text.Alike.of_blanks blank' blank ne' ne

theorem gapLanguage_singleton {c : Char} (ink : isBlank c = false) : gapLanguage [c] = {[c]} := by
  ext w
  constructor
  · intro alike
    have same : Text.squeeze false w = [c] := by
      have own : Text.squeeze false w = Text.squeeze false [c] := alike
      simpa [Text.squeeze, ink] using own
    obtain _ | ⟨c', w⟩ := w
    · cases same
    · cases blank : isBlank c'
      · simp only [Text.squeeze, blank, Bool.false_eq_true, if_false, List.cons.injEq] at same
        obtain ⟨rfl, rest⟩ := same
        obtain rfl : w = [] := by
          cases w with
          | nil => rfl
          | cons b w => cases bb : isBlank b <;> simp [Text.squeeze, bb] at rest
        rfl
      · simp only [Text.squeeze, blank, Bool.false_eq_true, if_true, if_false, List.cons.injEq] at same
        rw [← same.1] at ink
        cases ink
  · rintro rfl
    exact Text.Alike.refl [c]

theorem writes_gapRegex (d : Dialect) : ∀ t : Text, Writes false d (gapRegex false t) (gapLanguage t)
  | [] => by
    have empty : gapLanguage [] = 1 := by
      ext w
      rw [Language.mem_one]
      exact ⟨fun alike => (Text.Alike.eq_nil_iff alike).2 rfl, fun e => e ▸ Text.Alike.refl []⟩
    rw [empty]
    exact .nil
  | c :: t => by
    rw [gapRegex]
    split
    · rename_i blank
      obtain ⟨front, split, blanks⟩ := Text.eq_append_trimLeft t
      have ahead : ∀ x ∈ c :: front, isBlank x := List.forall_mem_cons.2 ⟨blank, blanks⟩
      have whole : gapLanguage (c :: t) = Regex.spaces * gapLanguage (Text.trimLeft t) := by
        conv_lhs => rw [split]
        rw [← List.cons_append, gapLanguage_append (by simp [Text.startsBlank_trimLeft]),
          gapLanguage_blanks ahead (List.cons_ne_nil c front)]
      rw [if_neg Bool.false_ne_true, gapRegex_true, whole]
      exact (Regex.writes_blanks d).loosen.append (writes_gapRegex d (Text.trimLeft t))
    · rename_i ink
      have own : isBlank c = false := by simpa using ink
      rw [← List.singleton_append, gapLanguage_append (by simp [Text.endsBlank, own]),
        gapLanguage_singleton own]
      exact (Regex.writesAtom_escapeChar d c).writes.append (writes_gapRegex d t)
termination_by t => t.length
decreasing_by
  · exact Nat.lt_succ_self _
  · exact Nat.lt_succ_of_le (List.dropWhile_sublist isBlank).length_le

end Gaps

/-- So many digits. -/
def digitsLanguage (low high : Nat) : TextLanguage := Regex.repeats low high (Regex.ofSet .digit)

theorem mem_digitsLanguage_iff {low high : Nat} (le : low ≤ high) {w : Text} :
    w ∈ digitsLanguage low high ↔ low ≤ w.length ∧ w.length ≤ high ∧ ∀ c ∈ w, isDigit c :=
  Regex.mem_repeats_some_ofSet le

theorem writes_upToTwo (d : Dialect) : Writes true d (Regex.digitsUpTo 2) (digitsLanguage 1 2) :=
  Regex.writes_digitsUpTo d (by decide) (by decide)

theorem writes_two (d : Dialect) : Writes true d (Regex.digits 2) (digitsLanguage 2 2) :=
  Regex.writes_digits d (by decide)

theorem writes_four (d : Dialect) : Writes true d (Regex.digits 4) (digitsLanguage 4 4) :=
  Regex.writes_digits d (by decide)

section Months

variable {names : List String} {name x : String}

theorem mem_insertMonth_iff : x ∈ insertMonth name names ↔ x = name ∨ x ∈ names := by
  refine ⟨mem_of_mem_insertMonth, fun h => ?_⟩
  induction names with
  | nil => exact List.mem_singleton.2 (h.resolve_right List.not_mem_nil)
  | cons other names ih =>
    rw [insertMonth]
    split
    · rename_i same
      obtain rfl : name = other := by simpa using same
      exact h.elim (fun e => e ▸ List.mem_cons_self) id
    · split
      · exact h.elim (fun e => e ▸ List.mem_cons_self) (List.mem_cons_of_mem name)
      · rw [List.mem_cons] at h ⊢
        obtain own | here | rest := h
        · exact .inr (ih (.inl own))
        · exact .inl here
        · exact .inr (ih (.inr rest))

theorem mem_sorted_iff : x ∈ names.foldr insertMonth [] ↔ x ∈ names := by
  induction names with
  | nil => exact Iff.rfl
  | cons name names ih => rw [List.foldr_cons, mem_insertMonth_iff, ih, List.mem_cons]

/-- The names of months in any case. -/
def monthsLanguage (names : List String) : TextLanguage := {w | ∃ name ∈ names, w ∈ anyCase name.toList}

theorem writes_monthRegex (d : Dialect) (ne : names ≠ []) :
    Writes false d (monthRegex names) (monthsLanguage names) := by
  have sorted : (names.foldr insertMonth []).map String.toList ≠ [] := by
    obtain ⟨name, names, rfl⟩ := List.exists_cons_of_ne_nil ne
    simpa using insertMonth_ne_nil name _
  have own := Regex.writes_foldedGroup d sorted
  have same : (((names.foldr insertMonth []).map String.toList).map anyCase).sum = monthsLanguage names := by
    ext w
    rw [mem_sum_iff]
    simp only [List.map_map, List.mem_map, exists_exists_and_eq_and, mem_sorted_iff, Function.comp_apply]
    exact Iff.rfl
  rwa [same, List.map_map] at own

end Months

/-- A part in brackets, named or not, is one field. -/
theorem laysNew_partGroup {L : TextLanguage} (h : Embeds d t L) {name : String} (ne : name.toList ≠ [])
    (allowed : ∀ c ∈ name.toList, d.allowsInName true c) :
    LaysNew d (partGroup true name t) [⟨some name.toList, L⟩] := .named h ne allowed

theorem writes_partGroup {L : TextLanguage} (h : Embeds d t L) (name : String) :
    Writes false d (partGroup false name t) L := h.writes_grouped

/-- What can be cut along fields is in their languages, one after the other. -/
theorem mem_prod_of_cut {fs : List Field} {ws : List Text} (h : Cut fs ws) :
    ws.flatten ∈ (fs.map Field.language).prod := by
  induction h with
  | nil => exact Language.nil_mem_one
  | @cons f w fs ws own _ ih =>
    rw [List.map_cons, List.prod_cons, List.flatten_cons]
    exact Language.mem_mul.2 ⟨w, own, _, ih, rfl⟩

namespace DatePart

/-- The name of the group for a part. -/
def name : DatePart → String
  | .day => "day"
  | .month _ => "month"
  | .year => "year"

/-- The texts that are taken for a part. -/
def language (months : MonthNames) : DatePart → TextLanguage
  | .day | .month .numeric => digitsLanguage 1 2
  | .month form => monthsLanguage (months.inForm form)
  | .year => digitsLanguage 4 4

theorem name_allowed (d : Dialect) (part : DatePart) :
    part.name.toList ≠ [] ∧ ∀ c ∈ part.name.toList, d.allowsInName true c := by
  refine ⟨by cases part <;> simp only [name] <;> decide, List.all_eq_true.1 ?_⟩
  cases part <;> cases d <;> simp only [name] <;> decide

end DatePart

/-- There are names of months in either form. -/
def MonthNames.AreFilled (months : MonthNames) : Prop := months.long ≠ [] ∧ months.short ≠ []

variable {months : MonthNames}

/-- The regex of a part is one in brackets, for the texts of the part. -/
theorem DateLayout.exists_partRegex_eq (d : Dialect) (filled : months.AreFilled) (part : DatePart) :
    ∃ body, (∀ named, DateLayout.partRegex named months part = partGroup named part.name body) ∧
      Embeds d body (part.language months) := by
  cases part with
  | day => exact ⟨_, fun _ => rfl, (writes_upToTwo d).loosen.body.embeds⟩
  | year => exact ⟨_, fun _ => rfl, (writes_four d).loosen.body.embeds⟩
  | month form =>
    cases form with
    | numeric => exact ⟨_, fun _ => rfl, (writes_upToTwo d).loosen.body.embeds⟩
    | short => exact ⟨_, fun _ => rfl, (writes_monthRegex d filled.2).body.embeds⟩
    | long => exact ⟨_, fun _ => rfl, (writes_monthRegex d filled.1).body.embeds⟩

namespace DateLayout

variable (layout : DateLayout)

/-- The parts in order. -/
def parts : List DatePart := [layout.first, layout.second, layout.third]

/-- The layout has a day, a month and a year. -/
def IsComplete : Prop := (layout.parts.map DatePart.name).Nodup

instance : Decidable layout.IsComplete := inferInstanceAs (Decidable (List.Nodup _))

/-- The fields of a date. -/
def fields (months : MonthNames) : List Field :=
  let part (p : DatePart) : Field := ⟨some p.name.toList, p.language months⟩
  let gap (t : Text) : Field := ⟨none, gapLanguage t⟩
  [part layout.first, gap layout.gap, part layout.second, gap layout.gap', part layout.third,
    gap layout.ending]

theorem names_fields (months : MonthNames) : (layout.fields months).filterMap Field.name =
    layout.parts.map fun p => p.name.toList := rfl

variable {layout}

theorem IsComplete.nodup_names (h : layout.IsComplete) (months : MonthNames) :
    ((layout.fields months).filterMap Field.name).Nodup := by
  have names : (layout.fields months).filterMap Field.name =
      (layout.parts.map DatePart.name).map String.toList := by simp [names_fields]
  rw [names]
  exact h.map fun _ _ => String.toList_inj.1

variable (layout)

/-- With names, the regex of a layout lays out its fields. -/
theorem laysNew (d : Dialect) (filled : months.AreFilled) (complete : layout.IsComplete) :
    LaysNew d (layout.regex true months) (layout.fields months) := by
  have part (p : DatePart) : LaysNew d (partRegex true months p) [⟨some p.name.toList, p.language months⟩] := by
    obtain ⟨body, same, embeds⟩ := exists_partRegex_eq d filled p
    rw [same]
    exact laysNew_partGroup embeds (p.name_allowed d).1 (p.name_allowed d).2
  have gap (t : Text) : LaysNew d (gapRegex false t) [⟨none, gapLanguage t⟩] := (writes_gapRegex d t).lays.new
  have nodup := complete.nodup_names months
  rw [names_fields, parts] at nodup
  simp only [List.map_cons, List.map_nil, List.nodup_cons, List.mem_cons, List.not_mem_nil, or_false,
    not_or] at nodup
  obtain ⟨⟨second, third⟩, third', -⟩ := nodup
  have row := (((((part layout.first).append (gap layout.gap) (by simp)).append (part layout.second)
    (by simpa using Ne.symm second)).append (gap layout.gap') (by simp)).append (part layout.third)
    (by simpa using ⟨Ne.symm third, Ne.symm third'⟩)).append (gap layout.ending) (by simp)
  exact row

/-- Without names, it writes the texts that can be cut along its fields. -/
theorem writes (d : Dialect) (filled : months.AreFilled) :
    Writes false d (layout.regex false months) ((layout.fields months).map Field.language).prod := by
  have part (p : DatePart) : Writes false d (partRegex false months p) (p.language months) := by
    obtain ⟨body, same, embeds⟩ := exists_partRegex_eq d filled p
    rw [same]
    exact writes_partGroup embeds _
  have row := (((((part layout.first).append (writes_gapRegex d layout.gap)).append
    (part layout.second)).append (writes_gapRegex d layout.gap')).append (part layout.third)).append
    (writes_gapRegex d layout.ending)
  simpa only [regex, fields, List.map_cons, List.map_nil, List.prod_cons, List.prod_nil, mul_one,
    mul_assoc] using row

end DateLayout

/-- The mark of a half of the day: a letter for the half and an m, either with a point or without. -/
def halfRegex : Regex :=
  let point : Regex := .repeated true 0 (some 1) (.chars true (.single '.'))
  .seq (.seq (.seq (.chars true (.union (.single 'a') (.single 'p'))) point) (.chars true (.single 'm'))) point

theorem read?_half (d : Dialect) :
    Regex.read? d (Regex.foldedGroup "[ap]\\.?m\\.?".toList) = some halfRegex := by
  cases d <;> decide +kernel

theorem embeds_half (d : Dialect) : Embeds d (Regex.foldedGroup "[ap]\\.?m\\.?".toList) halfRegex.language :=
  Regex.embeds_of_read? (read?_half d) rfl rfl

/-- A point, or nothing. -/
def IsPoint (w : Text) : Prop := w = [] ∨ ∃ c, '.' ∈ caseVariants c ∧ w = [c]

theorem mem_language_half_iff {w : Text} : w ∈ halfRegex.language ↔ ∃ c e c' e',
    ('a' ∈ caseVariants c ∨ 'p' ∈ caseVariants c) ∧ IsPoint e ∧ 'm' ∈ caseVariants c' ∧ IsPoint e' ∧
      w = c :: (e ++ c' :: e') := by
  have point (e : Text) : e ∈ (Regex.repeated true 0 (some 1) (.chars true (.single '.'))).language ↔ IsPoint e := by
    rw [Regex.language, Regex.repeats_optional, Language.mem_add, Language.mem_one]
    exact or_congr_right (exists_congr fun c => and_congr_left' (by simp [CharSet.contains]))
  simp only [halfRegex, Regex.language.eq_3, Language.mem_mul, point]
  constructor
  · rintro ⟨_, ⟨_, ⟨_, ⟨c, half, rfl⟩, e, he, rfl⟩, _, ⟨c', m, rfl⟩, rfl⟩, e', he', rfl⟩
    exact ⟨c, e, c', e', by simpa [CharSet.contains] using half, he, by simpa [CharSet.contains] using m, he',
      by simp⟩
  · rintro ⟨c, e, c', e', half, he, m, he', rfl⟩
    exact ⟨_, ⟨_, ⟨_, ⟨c, by simpa [CharSet.contains] using half, rfl⟩, e, he, rfl⟩, _,
      ⟨c', by simpa [CharSet.contains] using m, rfl⟩, rfl⟩, e', he', by simp⟩

namespace TimeLayout

/-- A part that is there or not, with something in front of it. -/
def optionalFields (there : Bool) (front : TextLanguage) (name : String) (L : TextLanguage) : List Field :=
  if there then [⟨none, front⟩, ⟨some name.toList, L⟩] else []

/-- The fields of a time. -/
def fields (layout : TimeLayout) : List Field :=
  [⟨some "hour".toList, digitsLanguage 1 2⟩, ⟨none, {[':']}⟩, ⟨some "minute".toList, digitsLanguage 2 2⟩]
    ++ optionalFields layout.seconds {[':']} "second" (digitsLanguage 2 2)
    ++ optionalFields layout.halfDay Regex.slack "meridiem" halfRegex.language

variable (layout : TimeLayout)

theorem names_fields : layout.fields.filterMap Field.name =
    ["hour".toList, "minute".toList] ++ (if layout.seconds then ["second".toList] else [])
      ++ (if layout.halfDay then ["meridiem".toList] else []) := by
  rw [fields, optionalFields, optionalFields]
  cases layout.seconds <;> cases layout.halfDay <;> rfl

theorem nodup_names : (layout.fields.filterMap Field.name).Nodup := by
  rw [names_fields]
  cases layout.seconds <;> cases layout.halfDay <;> decide

theorem allowsInName_names (d : Dialect) : ∀ name ∈ ["hour", "minute", "second", "meridiem"],
    name.toList ≠ [] ∧ ∀ c ∈ name.toList, d.allowsInName true c := by
  have each : ["hour", "minute", "second", "meridiem"].all (fun name =>
      !name.toList.isEmpty && name.toList.all (d.allowsInName true)) = true := by
    cases d <;> decide
  intro name h
  simpa only [Bool.and_eq_true, Bool.not_eq_true', List.isEmpty_eq_false_iff, List.all_eq_true] using
    List.all_eq_true.1 each name h

theorem regex_eq (named : Bool) : layout.regex named =
    partGroup named "hour" (Regex.digitsUpTo 2) ++ [':'] ++ partGroup named "minute" (Regex.digits 2)
      ++ (if layout.seconds then [':'] ++ partGroup named "second" (Regex.digits 2) else [])
      ++ (if layout.halfDay then ['\\', 's', '*'] ++
        partGroup named "meridiem" (Regex.foldedGroup "[ap]\\.?m\\.?".toList) else []) := by
  simp only [regex, List.append_assoc]
  rfl

theorem laysNew (d : Dialect) : LaysNew d (layout.regex true) layout.fields := by
  have part (name : String) (h : name ∈ ["hour", "minute", "second", "meridiem"]) {body : Text}
      {L : TextLanguage} (own : Embeds d body L) : LaysNew d (partGroup true name body) [⟨some name.toList, L⟩] :=
    laysNew_partGroup own (allowsInName_names d name h).1 (allowsInName_names d name h).2
  have colon : LaysNew d [':'] [⟨none, {[':']}⟩] :=
    (show Writes false d [':'] {[':']} from (writesAtom_colon d).writes).lays.new
  have slack : LaysNew d ['\\', 's', '*'] [⟨none, Regex.slack⟩] := (Regex.writes_slack d).lays.new
  have two : Embeds d (Regex.digits 2) (digitsLanguage 2 2) := (writes_two d).loosen.body.embeds
  have hour := part "hour" (by simp) (writes_upToTwo d).loosen.body.embeds
  have minute := (hour.append colon (by simp)).append (part "minute" (by simp) two) (by decide)
  have second : LaysNew d (if layout.seconds then [':'] ++ partGroup true "second" (Regex.digits 2) else [])
      (optionalFields layout.seconds {[':']} "second" (digitsLanguage 2 2)) := by
    rw [optionalFields]
    split
    · exact colon.append (part "second" (by simp) two) (by simp)
    · exact (Regex.Lays.nil d).new
  have half : LaysNew d (if layout.halfDay then ['\\', 's', '*'] ++
        partGroup true "meridiem" (Regex.foldedGroup "[ap]\\.?m\\.?".toList) else [])
      (optionalFields layout.halfDay Regex.slack "meridiem" halfRegex.language) := by
    rw [optionalFields]
    split
    · exact slack.append (part "meridiem" (by simp) (embeds_half d)) (by simp)
    · exact (Regex.Lays.nil d).new
  have nodup := layout.nodup_names
  rw [fields, List.filterMap_append, List.nodup_append, List.filterMap_append, List.nodup_append] at nodup
  rw [regex_eq]
  exact (minute.append second fun n hn hm => nodup.1.2.2 n hm n hn rfl).append half fun n hn hm =>
    nodup.2.2 n (by rwa [List.filterMap_append] at hm) n hn rfl

theorem writes (d : Dialect) : Writes false d (layout.regex false) (layout.fields.map Field.language).prod := by
  have part (name : String) {body : Text} {L : TextLanguage} (own : Embeds d body L) :
      Writes false d (partGroup false name body) L := writes_partGroup own name
  have colon : Writes false d [':'] {[':']} := (writesAtom_colon d).writes
  have two : Embeds d (Regex.digits 2) (digitsLanguage 2 2) := (writes_two d).loosen.body.embeds
  have second : Writes false d (if layout.seconds then [':'] ++ partGroup false "second" (Regex.digits 2) else [])
      ((optionalFields layout.seconds {[':']} "second" (digitsLanguage 2 2)).map Field.language).prod := by
    rw [optionalFields]
    split
    · simpa using colon.append (part "second" two)
    · exact .nil
  have half : Writes false d (if layout.halfDay then ['\\', 's', '*'] ++
        partGroup false "meridiem" (Regex.foldedGroup "[ap]\\.?m\\.?".toList) else [])
      ((optionalFields layout.halfDay Regex.slack "meridiem" halfRegex.language).map Field.language).prod := by
    rw [optionalFields]
    split
    · simpa using (Regex.writes_slack d).loosen.append (part "meridiem" (embeds_half d))
    · exact .nil
  have row := ((((part "hour" (writes_upToTwo d).loosen.body.embeds).append colon).append
    (part "minute" two)).append second).append half
  rw [regex_eq, fields, List.map_append, List.map_append, List.prod_append, List.prod_append]
  simpa only [List.map_cons, List.map_nil, List.prod_cons, List.prod_nil, mul_one, mul_assoc] using row

end TimeLayout

namespace TemporalLayout

/-- What may stand between a date and a time: a comma, perhaps with blanks after it, or blanks. -/
def separatorLanguage : TextLanguage := {[',']} * Regex.slack + Regex.spaces

theorem writes_separator (d : Dialect) : Writes false d separator separatorLanguage :=
  (((Regex.writesAtom_escapeChar d ',').writes.append (Regex.writes_slack d)).loosen.body.bar
    (Regex.writes_blanks d).loosen.body).grouped.writes

/-- The dates of the layout have a day, a month and a year. -/
def IsComplete : TemporalLayout → Prop
  | .date d | .dateTime d _ => d.IsComplete
  | .time _ => True

/-- The fields of a value. -/
def fields (months : MonthNames) : TemporalLayout → List Field
  | .date d => d.fields months
  | .time t => t.fields
  | .dateTime d t => d.fields months ++ [⟨none, separatorLanguage⟩] ++ t.fields

variable {layout : TemporalLayout}

theorem not_mem_names_date {d : DateLayout} {t : TimeLayout} : ∀ n ∈ t.fields.filterMap Field.name,
    n ∉ (d.fields months).filterMap Field.name := by
  intro n hn hm
  rw [DateLayout.names_fields] at hm
  obtain ⟨p, -, rfl⟩ := List.mem_map.1 hm
  have apart : p.name.toList ∉ ["hour".toList, "minute".toList, "second".toList, "meridiem".toList] := by
    cases p <;> simp only [DatePart.name] <;> decide
  refine apart ?_
  rw [TimeLayout.names_fields] at hn
  revert hn
  cases t.seconds <;> cases t.halfDay <;> simp +contextual [or_imp]

theorem IsComplete.nodup_names (h : layout.IsComplete) :
    ((layout.fields months).filterMap Field.name).Nodup := by
  cases layout with
  | date d => exact DateLayout.IsComplete.nodup_names h months
  | time t => exact t.nodup_names
  | dateTime d t =>
    rw [fields, List.filterMap_append, List.filterMap_append, List.nodup_append]
    refine ⟨by simpa using DateLayout.IsComplete.nodup_names h months, t.nodup_names, ?_⟩
    rintro n hn _ hm rfl
    exact not_mem_names_date n hm (by simpa using hn)

/-- With names, the regex of a layout lays out its fields. -/
theorem laysNew (d : Dialect) (filled : months.AreFilled) (complete : layout.IsComplete) :
    LaysNew d (layout.regex true months) (layout.fields months) := by
  cases layout with
  | date own => exact DateLayout.laysNew _ d filled complete
  | time own => exact TimeLayout.laysNew _ d
  | dateTime date time =>
    exact ((DateLayout.laysNew _ d filled complete).append (writes_separator d).lays.new (by simp)).append
      (TimeLayout.laysNew _ d) fun n hn hm => not_mem_names_date n hn (by simpa using hm)

/-- Without names, it writes the texts that can be cut along its fields. -/
theorem writes (d : Dialect) (filled : months.AreFilled) :
    Writes false d (layout.regex false months) ((layout.fields months).map Field.language).prod := by
  cases layout with
  | date own => exact DateLayout.writes _ d filled
  | time own => exact TimeLayout.writes _ d
  | dateTime date time =>
    have row := ((date.writes d filled).append (writes_separator d)).append (time.writes d)
    rw [regex, fields, List.map_append, List.map_append, List.prod_append, List.prod_append]
    simpa only [List.map_cons, List.map_nil, List.prod_cons, List.prod_nil, mul_one] using row

end TemporalLayout

end StepMatch
