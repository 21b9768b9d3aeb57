import StepMatch.Proofs.DataType.Readings
import StepMatch.Proofs.DataType.Runs

/-!
# A text has one cut

The parts of a date or a time can be told from the text alone, whatever the layout. Parts in digits are
the runs of digits, and which of them is which part depends on their number only. The name of a month is
what stands among the marks where the layouts have nothing. Between a date and a time no colon comes
before the hour.
-/

namespace StepMatch

variable {months : MonthNames} {t u : Text}

/-- Neither a colon nor a dash; they only stand in times and in dates of ISO form. -/
def isQuiet (c : Char) : Bool := c != ':' && c != '-'

theorem isQuiet_of_isDigit {c : Char} (h : isDigit c) : isQuiet c := by
  rw [isQuiet, Bool.and_eq_true, bne_iff_ne, bne_iff_ne]
  constructor <;> (rintro rfl; exact absurd h (by decide))

theorem isQuiet_of_isBlank {c : Char} (h : isBlank c) : isQuiet c := by
  rw [isQuiet, Bool.and_eq_true, bne_iff_ne, bne_iff_ne]
  constructor <;> (rintro rfl; exact absurd h (by decide))

/-- What is quiet in one case is so in any case. -/
theorem isQuiet_of_foldCase {c : Char} (h : isQuiet (foldCase c)) : isQuiet c := by
  rw [isQuiet, Bool.and_eq_true, bne_iff_ne, bne_iff_ne]
  constructor <;> (rintro rfl; exact absurd h (by decide))

theorem digits_of_mem {low high : Nat} (le : low ≤ high) (pos : 0 < low) (h : t ∈ digitsLanguage low high) :
    t ≠ [] ∧ ∀ c ∈ t, isDigit c := by
  obtain ⟨long, -, digits⟩ := (mem_digitsLanguage_iff le).1 h
  exact ⟨List.ne_nil_of_length_pos (by omega), digits⟩

/-- The names of months are made of quiet marks. -/
def MonthNames.AreClear (months : MonthNames) : Prop :=
  ∀ name ∈ months.short ++ months.long, ∀ c ∈ name.toList, isMark (foldCase c) ∧ isQuiet (foldCase c)

instance (months : MonthNames) : Decidable months.AreClear :=
  decidable_of_iff ((months.short ++ months.long).all fun name =>
      name.toList.all fun c => isMark (foldCase c) && isQuiet (foldCase c))
    (by simp only [MonthNames.AreClear, List.all_eq_true, Bool.and_eq_true])

/-- A name in any case folds to the name. -/
theorem exists_name_of_mem {names : List String} (h : t ∈ monthsLanguage names) :
    ∃ name ∈ names, t.map foldCase = name.toList.map foldCase := by
  obtain ⟨name, mem, cased⟩ := h
  refine ⟨name, mem, ?_⟩
  replace cased := Regex.mem_anyCase_iff.1 cased
  generalize name.toList = w at cased
  induction cased with
  | nil => rfl
  | cons same _ ih => rw [List.map_cons, List.map_cons, ih, foldCase_of_mem_caseVariants _ _ same]

namespace DatePart

/-- Whether the part is written in digits. -/
def isNumeric : DatePart → Bool
  | .day | .month .numeric | .year => true
  | .month _ => false

theorem digits_of_isNumeric {p : DatePart} (h : p.isNumeric) (mem : t ∈ p.language months) :
    t ≠ [] ∧ ∀ c ∈ t, isDigit c := by
  obtain _ | (_ | _ | _) | _ := p
  · exact digits_of_mem (by decide) (by decide) mem
  · exact digits_of_mem (by decide) (by decide) mem
  · cases h
  · cases h
  · exact digits_of_mem (by decide) (by decide) mem

theorem marks_of_not_isNumeric {p : DatePart} (clear : months.AreClear) (h : p.isNumeric = false)
    (mem : t ∈ p.language months) : ∀ c ∈ t, isMark c ∧ isQuiet c := by
  obtain ⟨names, sub, mem⟩ : ∃ names, names ⊆ months.short ++ months.long ∧ t ∈ monthsLanguage names := by
    obtain _ | (_ | _ | _) | _ := p
    · cases h
    · cases h
    · exact ⟨_, List.subset_append_left .., mem⟩
    · exact ⟨_, List.subset_append_right .., mem⟩
    · cases h
  obtain ⟨name, hn, same⟩ := exists_name_of_mem mem
  intro c hc
  have folded : foldCase c ∈ name.toList.map foldCase := same ▸ List.mem_map_of_mem hc
  obtain ⟨c', hc', e⟩ := List.mem_map.1 folded
  obtain ⟨mark, quiet⟩ := clear name (sub hn) c' hc'
  exact ⟨isMark_of_foldCase (e ▸ mark), isQuiet_of_foldCase (e ▸ quiet)⟩

theorem isQuiet_of_mem {p : DatePart} (clear : months.AreClear) (mem : t ∈ p.language months) :
    ∀ c ∈ t, isQuiet c := fun c hc => by
  cases h : p.isNumeric
  · exact (marks_of_not_isNumeric clear h mem c hc).2
  · exact isQuiet_of_isDigit ((digits_of_isNumeric h mem).2 c hc)

end DatePart

namespace DateLayout

variable {a b layout : DateLayout} {x x' : DateParts}

/-- Something without digits, colons and dashes stands between the parts, which are a day, a month and a
year. -/
@[mk_iff]
structure IsClear (layout : DateLayout) : Prop where
  complete : layout.IsComplete
  gap : layout.gap ≠ []
  gap' : layout.gap' ≠ []
  quiet : ∀ c ∈ layout.gap ++ layout.gap' ++ layout.ending, isDigit c = false ∧ isQuiet c

instance (layout : DateLayout) : Decidable layout.IsClear :=
  decidable_of_iff (layout.IsComplete ∧ layout.gap ≠ [] ∧ layout.gap' ≠ [] ∧
      (layout.gap ++ layout.gap' ++ layout.ending).all fun c => !isDigit c && isQuiet c)
    (by simp only [isClear_iff, List.all_eq_true, Bool.and_eq_true, Bool.not_eq_true'])

/-- The parts in digits, in order. -/
def numbers (layout : DateLayout) : List DatePart := layout.parts.filter DatePart.isNumeric

/-- The marks of the layout before and after the part that is not in digits. -/
def frame (layout : DateLayout) : Text × Text :=
  if layout.first.isNumeric then
    if layout.second.isNumeric then (marks layout.gap ++ marks layout.gap', marks layout.ending)
    else (marks layout.gap, marks layout.gap' ++ marks layout.ending)
  else ([], marks layout.gap ++ marks layout.gap' ++ marks layout.ending)

/-- The names of months that the layout uses. -/
def names (layout : DateLayout) (months : MonthNames) : List String :=
  layout.parts.flatMap fun
    | .month .numeric => []
    | .month form => months.inForm form
    | _ => []

/-- Two layouts read no text in different ways. With as many parts in digits they have the same ones in the
same order, and the name of a month stands between the same marks, or no name of the one reads as any of
the other does. -/
def Agrees (months : MonthNames) (a b : DateLayout) : Prop :=
  a.numbers.length = b.numbers.length → a.numbers = b.numbers ∧ (a.frame = b.frame ∨
    ∀ name ∈ a.names months, ∀ name' ∈ b.names months,
      (a.frame.1 ++ name.toList ++ a.frame.2).map foldCase ≠ (b.frame.1 ++ name'.toList ++ b.frame.2).map foldCase)

instance : Decidable (Agrees months a b) := inferInstanceAs (Decidable (_ → _))

/-- The texts between parts have no digits, colons or dashes either. -/
theorem IsClear.quiet_of_alike (h : layout.IsClear) {g gap : Text}
    (sub : gap ⊆ layout.gap ++ layout.gap' ++ layout.ending) (alike : Text.Alike g gap) :
    ∀ c ∈ g, isDigit c = false ∧ isQuiet c := fun c hc => by
  obtain blank | mem := mem_of_alike alike hc
  · exact ⟨isDigit_eq_false_of_isBlank blank, isQuiet_of_isBlank blank⟩
  · exact h.quiet c (sub mem)

namespace Fits

/-- A named month of the layout reads as one of its names. -/
theorem exists_name (h : layout.Fits months x t) {form : MonthForm} (mem : .month form ∈ layout.parts)
    (named : DatePart.isNumeric (.month form) = false) :
    ∃ name ∈ layout.names months, x.month.map foldCase = name.toList.map foldCase := by
  have own : x.month ∈ DatePart.language months (.month form) := by
    obtain ⟨parts, -, -, -⟩ := h
    exact parts _ mem
  have names : x.month ∈ monthsLanguage (months.inForm form) ∧ ∀ name ∈ months.inForm form, name ∈ layout.names months := by
    cases form with
    | numeric => cases named
    | short => exact ⟨own, fun name hn => List.mem_flatMap.2 ⟨_, mem, hn⟩⟩
    | long => exact ⟨own, fun name hn => List.mem_flatMap.2 ⟨_, mem, hn⟩⟩
  obtain ⟨name, hn, same⟩ := exists_name_of_mem names.1
  exact ⟨name, names.2 name hn, same⟩

variable (clear : layout.IsClear) (lettered : months.AreClear)

include clear lettered

/-- The runs of digits are the parts in digits. -/
theorem digitRuns_eq (h : layout.Fits months x t) : digitRuns t = layout.numbers.map x.text := by
  obtain ⟨parts, gap, gap', ending⟩ := h
  have runs {p : DatePart} (hp : p ∈ layout.parts) : digitRuns (x.text p) = ([p].filter DatePart.isNumeric).map x.text := by
    cases numeric : p.isNumeric
    · rw [List.filter_singleton, numeric]
      have mark := DatePart.marks_of_not_isNumeric lettered numeric (parts p hp)
      exact digitRuns_of_not fun c hc => (isMark_iff.1 (mark c hc).1).1
    · obtain ⟨ne, digits⟩ := DatePart.digits_of_isNumeric numeric (parts p hp)
      rw [digitRuns_of_isDigit ne digits, List.filter_singleton, numeric]
      rfl
  have none {g own : Text} (sub : own ⊆ layout.gap ++ layout.gap' ++ layout.ending) (alike : Text.Alike g own) :
      ∀ c ∈ g, isDigit c = false := fun c hc => (clear.quiet_of_alike sub alike c hc).1
  have filled {g own : Text} (alike : Text.Alike g own) (ne : own ≠ []) : g ≠ [] :=
    fun e => ne (alike.eq_nil_iff.1 e)
  rw [digitRuns_append_right (none (by simp) ending),
    digitRuns_append (filled gap' clear.gap') (none (by simp) gap'),
    digitRuns_append (filled gap clear.gap) (none (by simp) gap),
    runs (by simp [DateLayout.parts]), runs (by simp [DateLayout.parts]), runs (by simp [DateLayout.parts]),
    ← List.map_append, ← List.map_append, ← List.filter_append, ← List.filter_append]
  rfl

/-- There is no colon and no dash. -/
theorem isQuiet (h : layout.Fits months x t) : ∀ c ∈ t, isQuiet c := by
  obtain ⟨parts, gap, gap', ending⟩ := h
  have part {p : DatePart} (hp : p ∈ layout.parts) := DatePart.isQuiet_of_mem lettered (parts p hp)
  have between {g own : Text} (sub : own ⊆ layout.gap ++ layout.gap' ++ layout.ending) (alike : Text.Alike g own)
      (c : Char) (hc : c ∈ g) : StepMatch.isQuiet c := (clear.quiet_of_alike sub alike c hc).2
  intro c hc
  simp only [List.mem_append] at hc
  obtain ((((hc | hc) | hc) | hc) | hc) | hc := hc
  · exact part (by simp [DateLayout.parts]) c hc
  · exact between (by simp) gap c hc
  · exact part (by simp [DateLayout.parts]) c hc
  · exact between (by simp) gap' c hc
  · exact part (by simp [DateLayout.parts]) c hc
  · exact between (by simp) ending c hc

/-- If the month is not in digits, the marks are its name and those of the layout. -/
theorem marks_eq (h : layout.Fits months x t) (named : ∃ p ∈ layout.parts, p.isNumeric = false) :
    marks t = layout.frame.1 ++ x.month ++ layout.frame.2 := by
  obtain ⟨parts, gap, gap', ending⟩ := h
  have own {p : DatePart} (hp : p ∈ layout.parts) : marks (x.text p) = if p.isNumeric then [] else x.month := by
    cases numeric : p.isNumeric
    · rw [marks_eq_self fun c hc => (DatePart.marks_of_not_isNumeric lettered numeric (parts p hp) c hc).1]
      cases p with
      | month form => rfl
      | _ => cases numeric
    · exact marks_of_isDigit (DatePart.digits_of_isNumeric numeric (parts p hp)).2
  have other {p q : DatePart} (ne : p.name ≠ q.name) (hp : p.isNumeric = false) : q.isNumeric = true := by
    cases p with
    | month form => cases q <;> first | rfl | exact absurd rfl ne
    | _ => cases hp
  have distinct := clear.complete
  simp only [IsComplete, DateLayout.parts, List.map_cons, List.map_nil, List.nodup_cons, List.mem_cons,
    List.not_mem_nil, or_false, not_or] at distinct
  obtain ⟨⟨second, third⟩, third', -⟩ := distinct
  simp only [marks_append, marks_eq_of_alike gap, marks_eq_of_alike gap', marks_eq_of_alike ending,
    own (show layout.first ∈ layout.parts by simp [DateLayout.parts]),
    own (show layout.second ∈ layout.parts by simp [DateLayout.parts]),
    own (show layout.third ∈ layout.parts by simp [DateLayout.parts]), frame]
  cases first : layout.first.isNumeric
  · simp [other second first, other third first]
  · cases next : layout.second.isNumeric
    · simp [other third' next]
    · have last : layout.third.isNumeric = false := by
        simpa [DateLayout.parts, first, next] using named
      simp [last]

/-- Texts with the same digits and the same marks have the same parts, if their layouts agree. -/
theorem parts_eq (h : layout.Fits months x t) {other : DateLayout} (clear' : other.IsClear)
    (agrees : Agrees months layout other) (h' : other.Fits months x' u)
    (runs : digitRuns t = digitRuns u) (same : marks t = marks u) : x = x' := by
  rw [h.digitRuns_eq clear lettered, h'.digitRuns_eq clear' lettered] at runs
  obtain ⟨numbers, framed⟩ := agrees (by simpa using congrArg List.length runs)
  rw [← numbers, List.map_inj_left] at runs
  obtain ⟨day, ⟨form, month⟩, year⟩ := clear.complete.mem_parts
  obtain ⟨-, ⟨form', month'⟩, -⟩ := clear'.complete.mem_parts
  have number {p : DatePart} (hp : p ∈ layout.parts) (numeric : p.isNumeric) : x.text p = x'.text p :=
    runs p (List.mem_filter.2 ⟨hp, numeric⟩)
  have day : x.day = x'.day := number day rfl
  have year : x.year = x'.year := number year rfl
  have month : x.month = x'.month := by
    cases numeric : DatePart.isNumeric (.month form)
    · -- The other layout has as many parts in digits, so its month has a name too.
      have numeric' : DatePart.isNumeric (.month form') = false := by
        by_contra digits
        have mem : .month form' ∈ layout.numbers :=
          numbers ▸ List.mem_filter.2 ⟨month', by simpa using digits⟩
        have one : DatePart.month form' = .month form :=
          List.inj_on_of_nodup_map clear.complete (List.mem_of_mem_filter mem) month rfl
        exact digits (one ▸ numeric)
      have marked := h.marks_eq clear lettered ⟨_, month, numeric⟩
      rw [same, h'.marks_eq clear' lettered ⟨_, month', numeric'⟩] at marked
      obtain frame | apart := framed
      · rw [frame, List.append_assoc, List.append_assoc] at marked
        exact (List.append_cancel_right (List.append_cancel_left marked)).symm
      · obtain ⟨name, hn, own⟩ := h.exists_name month numeric
        obtain ⟨name', hn', own'⟩ := h'.exists_name month' numeric'
        refine absurd ?_ (apart name hn name' hn')
        have folded := congrArg (List.map foldCase) marked
        simp only [List.map_append, own, own'] at folded ⊢
        exact folded.symm
    · exact number month numeric
  obtain ⟨_, _, _⟩ := x
  obtain ⟨_, _, _⟩ := x'
  cases day
  cases month
  cases year
  rfl

end Fits

end DateLayout

/-! ### Times of day -/

section Optional

variable {there there' : Bool} {front front' L L' : TextLanguage} {s? s?' : Option Text} {s s' m m' : Text}

/-- Seconds, or none, in front of something that opens with no colon. -/
theorem IsOptional.eq_of_seconds (h : IsOptional there {[':']} (digitsLanguage 2 2) s? s)
    (h' : IsOptional there' {[':']} (digitsLanguage 2 2) s?' s') (open_ : m.head? ≠ some ':')
    (open' : m'.head? ≠ some ':') (e : s ++ m = s' ++ m') : s? = s?' ∧ m = m' := by
  have length {w : Text} (hw : w ∈ digitsLanguage 2 2) : w.length = 2 := by
    obtain ⟨low, high, -⟩ := (mem_digitsLanguage_iff le_rfl).1 hw
    omega
  cases h with
  | absent =>
    cases h' with
    | absent => exact ⟨rfl, e⟩
    | present _ hg hw =>
      rw [Set.mem_singleton_iff.1 hg] at e
      rw [List.nil_append] at e
      exact absurd (congrArg List.head? e) (by simpa using open_)
  | present _ hg hw =>
    rw [Set.mem_singleton_iff.1 hg] at e
    cases h' with
    | absent => exact absurd (congrArg List.head? e.symm) (by simpa using open')
    | present _ hg' hw' =>
      rw [Set.mem_singleton_iff.1 hg'] at e
      obtain ⟨rfl, rfl⟩ := List.append_inj (List.cons.inj e).2 ((length hw).trans (length hw').symm)
      exact ⟨rfl, rfl⟩

/-- The mark for a half of the day is quiet, and opens with a letter. -/
theorem quiet_and_open_of_mem_half {w : Text} (h : w ∈ halfRegex.language) : (∀ c ∈ w, isQuiet c) ∧
    ∃ c rest, w = c :: rest ∧ isBlank c = false ∧ c ≠ ':' ∧ c ≠ '.' := by
  obtain ⟨c, e, c', e', half, point, m, point', rfl⟩ := mem_language_half_iff.1 h
  have quiet {c₀ c : Char} (same : c₀ ∈ caseVariants c) (own : isQuiet (foldCase c₀)) : isQuiet c :=
    isQuiet_of_foldCase (foldCase_of_mem_caseVariants c c₀ same ▸ own)
  have quietPoint {e : Text} (point : IsPoint e) : ∀ c ∈ e, isQuiet c := by
    obtain rfl | ⟨c, same, rfl⟩ := point
    · exact fun c hc => absurd hc List.not_mem_nil
    · exact List.forall_mem_singleton.2 (quiet same (by decide))
  have fold {c₀ : Char} (same : c₀ ∈ caseVariants c) : foldCase c = foldCase c₀ :=
    (foldCase_of_mem_caseVariants c c₀ same).symm
  have folded : foldCase c = 'a' ∨ foldCase c = 'p' :=
    half.imp (fun a => (fold a).trans (by decide)) fun p => (fold p).trans (by decide)
  have mark : isMark c := isMark_of_foldCase (by obtain e | e := folded <;> rw [e] <;> decide)
  refine ⟨?_, c, _, rfl, (isMark_iff.1 mark).2.1, ?_, ?_⟩
  · refine List.forall_mem_cons.2 ⟨half.elim (quiet · (by decide)) (quiet · (by decide)), fun x hx => ?_⟩
    obtain hx | hx := List.mem_append.1 hx
    · exact quietPoint point x hx
    · obtain rfl | hx := List.mem_cons.1 hx
      · exact quiet m (by decide)
      · exact quietPoint point' x hx
  · rintro rfl
    exact absurd folded (by decide)
  · rintro rfl
    exact absurd folded (by decide)

/-- Blanks and the mark for a half of the day, or nothing. -/
theorem IsOptional.open_of_half (h : IsOptional there Regex.slack halfRegex.language s? m) :
    (∀ c ∈ m, isQuiet c) ∧ m.head? ≠ some ':' ∧ m.head? ≠ some '.' := by
  cases h with
  | absent => simp
  | @present _ g w hg hw =>
    obtain ⟨quiet, c, rest, rfl, -, colon, point⟩ := quiet_and_open_of_mem_half hw
    refine ⟨fun x hx => (List.mem_append.1 hx).elim (fun hx => isQuiet_of_isBlank (hg x hx)) (quiet x), ?_⟩
    cases g with
    | nil => exact ⟨by simpa using colon, by simpa using point⟩
    | cons b g =>
      have blank : isBlank b := hg b List.mem_cons_self
      constructor <;>
        · simp only [List.cons_append, List.head?_cons, ne_eq, Option.some.injEq]
          rintro rfl
          exact absurd blank (by decide)

theorem IsOptional.eq_of_half (h : IsOptional there Regex.slack halfRegex.language s? m)
    (h' : IsOptional there' Regex.slack halfRegex.language s?' m) : s? = s?' := by
  have behind {g w : Text} (hg : g ∈ Regex.slack) (hw : w ∈ halfRegex.language) : Text.trimLeft (g ++ w) = w := by
    obtain ⟨-, c, rest, rfl, ink, -⟩ := quiet_and_open_of_mem_half hw
    rw [Text.trimLeft, List.dropWhile_append_of_pos hg, List.dropWhile_cons_of_neg (by simp [ink])]
  have filled {g w : Text} (hw : w ∈ halfRegex.language) : g ++ w ≠ [] := by
    obtain ⟨-, c, rest, rfl, -⟩ := quiet_and_open_of_mem_half hw
    simp
  generalize whole : m = m' at h'
  cases h with
  | absent =>
    cases h' with
    | absent => rfl
    | present _ _ hw => exact absurd whole.symm (filled hw)
  | present _ hg hw =>
    cases h' with
    | absent => exact absurd whole (filled hw)
    | present _ hg' hw' =>
      have same := congrArg Text.trimLeft whole
      rw [behind hg hw, behind hg' hw'] at same
      rw [same]

end Optional

namespace TimeLayout.Fits

variable {a b layout : TimeLayout} {y y' : TimeParts}

/-- The parts of a time stand where they do, up to what is behind the seconds. -/
theorem parts_eq {hour minute s m : Text} {there : Bool} {s? : Option Text}
    (h : layout.Fits y (hour ++ ':' :: minute ++ s ++ m)) (digits : ∀ c ∈ hour, isDigit c)
    (two : minute.length = 2) (second : IsOptional there {[':']} (digitsLanguage 2 2) s? s)
    (open_ : m.head? ≠ some ':') : y.hour = hour ∧ y.minute = minute ∧ y.second = s? ∧
      IsOptional layout.halfDay Regex.slack halfRegex.language y.half m := by
  generalize whole : hour ++ ':' :: minute ++ s ++ m = t at h
  obtain ⟨hh, hm, own, half⟩ := h
  obtain ⟨low, high, -⟩ := (mem_digitsLanguage_iff le_rfl).1 hm
  have colon : ¬ isDigit ':' := by decide
  simp only [List.append_assoc, List.cons_append] at whole
  obtain ⟨rfl, -, rest⟩ := eq_of_append_cons digits (digits_of_mem (by decide) (by decide) hh).2 colon colon whole
  obtain ⟨rfl, tail⟩ := List.append_inj rest (by omega)
  obtain ⟨rfl, rfl⟩ := second.eq_of_seconds own open_ half.open_of_half.2.1 tail
  exact ⟨rfl, rfl, rfl, half⟩

/-- A text has one cut into the parts of a time, whatever the layout. -/
theorem unique (h : a.Fits y t) (h' : b.Fits y' t) : y = y' := by
  obtain ⟨hour, minute, second, half⟩ := h'
  obtain ⟨low, high, -⟩ := (mem_digitsLanguage_iff le_rfl).1 minute
  obtain ⟨hours, minutes, seconds, halves⟩ := h.parts_eq (digits_of_mem (by decide) (by decide) hour).2
    (by omega) second half.open_of_half.2.1
  have half := halves.eq_of_half half
  obtain ⟨_, _, _, _⟩ := y
  obtain ⟨_, _, _, _⟩ := y'
  cases hours
  cases minutes
  cases seconds
  cases half
  rfl

/-- There is no dash. -/
theorem not_mem_dash (h : layout.Fits y t) : '-' ∉ t := by
  obtain ⟨hour, minute, second, half⟩ := h
  have number {low : Nat} {w : Text} (le : low ≤ 2) (pos : 0 < low) (hw : w ∈ digitsLanguage low 2) : '-' ∉ w :=
    fun mem => absurd ((digits_of_mem le pos hw).2 _ mem) (by decide)
  have seconds {there : Bool} {s? : Option Text} {s : Text}
      (second : IsOptional there {[':']} (digitsLanguage 2 2) s? s) : '-' ∉ s := by
    cases second with
    | absent => exact List.not_mem_nil
    | present _ hg hw =>
      rw [Set.mem_singleton_iff.1 hg]
      simpa using number le_rfl (by decide) hw
  have halves : '-' ∉ _ := fun mem => absurd (half.open_of_half.1 _ mem) (by decide)
  simp only [List.mem_append, List.mem_cons, not_or]
  exact ⟨⟨⟨number (by decide) (by decide) hour, by decide, number le_rfl (by decide) minute⟩, seconds second⟩,
    halves⟩

end TimeLayout.Fits

/-! ### Layouts of a locale -/

section Separators

variable {s : Text}

/-- Between a date and a time there is something, but no digits and no marks. -/
theorem separator_facts (h : s ∈ TemporalLayout.separatorLanguage) : s ≠ [] ∧ (∀ c ∈ s, isDigit c = false) ∧ marks s = [] ∧
    ∀ c ∈ s, isQuiet c := by
  have each : s ≠ [] ∧ ∀ c ∈ s, c = ',' ∨ isBlank c := by
    obtain comma | ⟨ne, blank⟩ := (Language.mem_add _ _ _).1 h
    · obtain ⟨_, rfl, w, blank, rfl⟩ := Language.mem_mul.1 comma
      exact ⟨by simp, List.forall_mem_cons.2 ⟨.inl rfl, fun c hc => .inr (blank c hc)⟩⟩
    · exact ⟨ne, fun c hc => .inr (blank c hc)⟩
  have facts (c : Char) (hc : c ∈ s) : isDigit c = false ∧ isMark c = false ∧ isQuiet c := by
    obtain rfl | blank := each.2 c hc
    · decide
    · exact ⟨isDigit_eq_false_of_isBlank blank, by simp [isMark, blank], isQuiet_of_isBlank blank⟩
  exact ⟨each.1, fun c hc => (facts c hc).1, marks_eq_nil fun c hc => (facts c hc).2.1,
    fun c hc => (facts c hc).2.2⟩

end Separators

namespace Locale

/-- The layouts of dates and the names of months that go together in some locale. -/
def dateConventions : List (List DateLayout × MonthNames) :=
  [(DateLayout.american, .english), (DateLayout.european, .english), (DateLayout.european, .french),
   (DateLayout.european, .italian), (DateLayout.spanish, .spanish), (DateLayout.portuguese, .portuguese),
   (DateLayout.german, .german), (DateLayout.eastAsian, .english)]

theorem mem_dateConventions (l : Locale) : (l.dateLayouts, l.monthNames) ∈ dateConventions := by
  rw [dateLayouts, monthNames, isAmerican]
  cases l.language? with
  | none => simp [dateConventions]
  | some language =>
    cases language
    case english => cases l.region.all (· == "US") <;> simp [dateConventions]
    all_goals simp [dateConventions]

/-- What a locale's dates have to be like for a text to have one cut. -/
structure ReadsDates (layouts : List DateLayout) (months : MonthNames) : Prop where
  filled : months.AreFilled
  lettered : months.AreClear
  clear : ∀ d ∈ layouts, d.IsClear
  agree : ∀ a ∈ layouts, ∀ b ∈ layouts, DateLayout.Agrees months a b

theorem readsDates (l : Locale) : ReadsDates l.dateLayouts l.monthNames := by
  have each : ∀ c ∈ dateConventions, (c.2.long ≠ [] ∧ c.2.short ≠ []) ∧ c.2.AreClear ∧
      (∀ d ∈ c.1, d.IsClear) ∧ ∀ a ∈ c.1, ∀ b ∈ c.1, DateLayout.Agrees c.2 a b := by
    decide +kernel
  obtain ⟨filled, lettered, clear, agree⟩ := each _ l.mem_dateConventions
  exact ⟨filled, lettered, clear, agree⟩

end Locale

/-- Up to its first colon, a date with a time has the digits and the marks of the date, and those of the
hour. -/
theorem TemporalLayout.Fits.exists_colon {d : DateLayout} {d' : TimeLayout} {x : DateParts} {y : TimeParts}
    (clear : d.IsClear) (lettered : months.AreClear)
    (h : (TemporalLayout.dateTime d d').Fits months (.dateTime x y) t) :
    ∃ front rest, t = front ++ ':' :: rest ∧ (∀ c ∈ front, c ≠ ':') ∧ d'.Fits y (y.hour ++ ':' :: rest) ∧
      ∃ u, d.Fits months x u ∧ digitRuns front = digitRuns u ++ [y.hour] ∧ marks front = marks u := by
  obtain ⟨⟩ | ⟨⟩ | @⟨_, _, _, _, u, s, _, date, between, time⟩ := h
  obtain ⟨ne, others, unmarked, quiet⟩ := separator_facts between
  have whole := time
  obtain @⟨w, m, hour, minute, second, half⟩ := time
  obtain ⟨some, digits⟩ := digits_of_mem (by decide) (by decide) hour
  refine ⟨u ++ s ++ y.hour, y.minute ++ w ++ m, by simp, fun c hc => ?_, by simpa using whole, u, date, ?_, ?_⟩
  · have own : isQuiet c := by
      obtain hc | hc := List.mem_append.1 hc
      · exact (List.mem_append.1 hc).elim (date.isQuiet clear lettered c) (quiet c)
      · exact isQuiet_of_isDigit (digits c hc)
    rintro rfl
    exact absurd own (by decide)
  · rw [digitRuns_append ne others, digitRuns_of_isDigit some digits]
  · rw [marks_append, marks_append, unmarked, marks_of_isDigit digits, List.append_nil, List.append_nil]

namespace TemporalForm

variable {l : Locale} {form : TemporalForm} {a b layout : TemporalLayout} {p q : TemporalParts}

/-- The layouts of a form write it, and have all of its parts. -/
theorem form_and_isComplete (h : layout ∈ form.layouts l) : layout.form = form ∧ layout.IsComplete := by
  have complete {d : DateLayout} (hd : d ∈ l.dateLayouts) : d.IsComplete := (l.readsDates.clear d hd).complete
  cases form with
  | date =>
    obtain ⟨d, hd, rfl⟩ := List.mem_map.1 h
    exact ⟨rfl, complete hd⟩
  | time =>
    obtain ⟨d, -, rfl⟩ := List.mem_map.1 h
    exact ⟨rfl, trivial⟩
  | dateTime =>
    obtain ⟨d, hd, h⟩ := List.mem_flatMap.1 h
    obtain ⟨d', -, rfl⟩ := List.mem_map.1 h
    exact ⟨rfl, complete hd⟩

/-- In one locale a text has one cut into parts, whatever the layout. -/
theorem unique_fits (ha : a ∈ form.layouts l) (hb : b ∈ form.layouts l) (h : a.Fits l.monthNames p t)
    (h' : b.Fits l.monthNames q t) : p = q := by
  have reads := l.readsDates
  have one {d d' : DateLayout} {x x' : DateParts} {u v : Text} (hd : d ∈ l.dateLayouts) (hd' : d' ∈ l.dateLayouts)
      (fits : d.Fits l.monthNames x u) (fits' : d'.Fits l.monthNames x' v) (runs : digitRuns u = digitRuns v)
      (same : marks u = marks v) : x = x' :=
    fits.parts_eq (reads.clear d hd) reads.lettered (reads.clear d' hd') (reads.agree d hd d' hd') fits' runs same
  cases form with
  | date =>
    obtain ⟨d, hd, rfl⟩ := List.mem_map.1 ha
    obtain ⟨d', hd', rfl⟩ := List.mem_map.1 hb
    obtain ⟨fits⟩ := h
    obtain ⟨fits'⟩ := h'
    rw [one hd hd' fits fits' rfl rfl]
  | time =>
    obtain ⟨d, -, rfl⟩ := List.mem_map.1 ha
    obtain ⟨d', -, rfl⟩ := List.mem_map.1 hb
    obtain ⟨⟩ | ⟨fits⟩ := h
    obtain ⟨⟩ | ⟨fits'⟩ := h'
    rw [fits.unique fits']
  | dateTime =>
    obtain ⟨d, hd, ha⟩ := List.mem_flatMap.1 ha
    obtain ⟨d₁, -, rfl⟩ := List.mem_map.1 ha
    obtain ⟨d', hd', hb⟩ := List.mem_flatMap.1 hb
    obtain ⟨d₁', -, rfl⟩ := List.mem_map.1 hb
    obtain _ | _ | ⟨x, y⟩ := p
    · nomatch h
    · nomatch h
    obtain _ | _ | ⟨x', y'⟩ := q
    · nomatch h'
    · nomatch h'
    obtain ⟨front, rest, rfl, noColon, time, u, fits, runs, same⟩ := h.exists_colon (reads.clear d hd) reads.lettered
    obtain ⟨front', rest', whole, noColon', time', u', fits', runs', same'⟩ :=
      h'.exists_colon (reads.clear d' hd') reads.lettered
    obtain ⟨rfl, -, rfl⟩ := eq_of_append_cons noColon noColon' (by simp) (by simp) whole
    obtain ⟨dates, hours⟩ := List.append_inj' (runs.symm.trans runs') rfl
    rw [← List.singleton_inj.1 hours] at time'
    rw [one hd hd' fits fits' dates (same.symm.trans same'), time.unique time']

end TemporalForm

end StepMatch
