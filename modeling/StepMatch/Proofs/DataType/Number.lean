import StepMatch.Proofs.DataType.Standard
import StepMatch.Proofs.Numeral.Digits
import StepMatch.Proofs.Text.Squeeze
import StepMatch.DataType.Number

/-!
# Whole numbers in sentences

A whole number is written as a sign and digits, in groups of three with the mark of the locale between
them or without any mark. Exactly such texts are read, and as the number that the digits write, provided
that it is in the range. Marks of another locale do not change that number.
-/

namespace StepMatch

open Regex (Writes WritesBody Dialect)

variable {p q : Char → Bool} {mark c : Char} {body ds s t : Text} {n : Int} {negative : Bool}

/-- A row of digits with the digits in it: either these by themselves, or with a mark in front of each
group of three, behind at most three digits that come first. -/
inductive Grouped (p : Char → Bool) (mark : Char) : Text → Text → Prop
  | plain {ds : Text} (ne : ds ≠ []) (digits : ∀ c ∈ ds, p c) : Grouped p mark ds ds
  | groups {first : Text} {groups : List Text} (ne : first ≠ []) (few : first.length ≤ 3)
      (more : groups ≠ []) (three : ∀ g ∈ groups, g.length = 3)
      (digits : ∀ c ∈ first ++ groups.flatten, p c) :
      Grouped p mark (first ++ groups.flatMap (mark :: ·)) (first ++ groups.flatten)

namespace Grouped

theorem digits_ne_nil (h : Grouped p mark body ds) : ds ≠ [] := by
  cases h with
  | plain ne => exact ne
  | groups ne => exact List.append_ne_nil_of_left_ne_nil ne _

theorem digits (h : Grouped p mark body ds) : ∀ c ∈ ds, p c := by
  cases h with
  | plain _ digits => exact digits
  | groups _ _ _ _ digits => exact digits

/-- The digits may be of any kind that they are of. -/
theorem of_digits (h : Grouped p mark body ds) (digits : ∀ c ∈ ds, q c) : Grouped q mark body ds := by
  cases h with
  | plain ne => exact .plain ne digits
  | groups ne few more three => exact .groups ne few more three digits

/-- What is left without the marks are the digits. -/
theorem filter_eq (h : Grouped p mark body ds) (keeps : ∀ c ∈ ds, q c) (drops : q mark = false) :
    body.filter q = ds := by
  cases h with
  | plain => exact List.filter_eq_self.2 keeps
  | @groups first groups =>
    obtain ⟨own, others⟩ := List.forall_mem_append.1 keeps
    rw [List.filter_append, List.filter_eq_self.2 own]
    have rest (groups : List Text) (digits : ∀ c ∈ groups.flatten, q c) :
        (groups.flatMap (mark :: ·)).filter q = groups.flatten := by
      induction groups with
      | nil => rfl
      | cons g groups ih =>
        obtain ⟨here, later⟩ := List.forall_mem_append.1 digits
        rw [List.flatMap_cons, List.cons_append, List.filter_cons_of_neg (by simp [drops]),
          List.filter_append, List.filter_eq_self.2 here, ih later, List.flatten_cons]
    rw [rest groups others]

/-- The row opens with a digit. -/
theorem exists_cons (h : Grouped p mark body ds) : ∃ c rest, body = c :: rest ∧ p c := by
  cases h with
  | plain ne digits =>
    obtain ⟨c, rest, rfl⟩ := List.exists_cons_of_ne_nil ne
    exact ⟨c, rest, rfl, digits c List.mem_cons_self⟩
  | groups ne _ _ _ digits =>
    obtain ⟨c, rest, rfl⟩ := List.exists_cons_of_ne_nil ne
    exact ⟨c, _, rfl, digits c (by simp)⟩

/-- The row closes with a digit. -/
theorem exists_concat (h : Grouped p mark body ds) : ∃ front c, body = front ++ [c] ∧ p c := by
  cases h with
  | plain ne digits =>
    obtain rfl | ⟨front, c, rfl⟩ := List.eq_nil_or_concat body
    · exact absurd rfl ne
    · exact ⟨front, c, List.concat_eq_append, digits c (by simp)⟩
  | @groups first groups _ _ more three digits =>
    obtain rfl | ⟨groups, g, rfl⟩ := List.eq_nil_or_concat groups
    · exact absurd rfl more
    obtain rfl | ⟨g, c, rfl⟩ := List.eq_nil_or_concat g
    · cases three [] (by simp)
    · exact ⟨first ++ (groups.flatMap (mark :: ·) ++ mark :: g), c, by simp, digits c (by simp)⟩

end Grouped

namespace NumberMarks

variable {m m' : NumberMarks}

/-- The texts of whole numbers, with digits of any script. -/
def wholeLanguage (m : NumberMarks) : TextLanguage :=
  {w | ∃ negative s body ds, Sign negative s ∧ Grouped isDigit m.grouping body ds ∧ w = s ++ body}

/-- A text writes a whole number: a sign, and ASCII digits with the marks between groups of three or
without any. -/
def WritesWhole (m : NumberMarks) (t : Text) (n : Int) : Prop :=
  ∃ negative s body ds, Sign negative s ∧ Grouped isAsciiDigit m.grouping body ds ∧ t = s ++ body ∧
    n = signed negative (digitsValue ds)

theorem mem_sign_iff :
    t ∈ (1 + Regex.ofSet (.union (.single '+') (.single '-')) : TextLanguage) ↔
      ∃ negative, Sign negative t := by
  have one : t ∈ (1 + Regex.ofSet (.union (.single '+') (.single '-')) : TextLanguage) ↔
      t = [] ∨ t = ['+'] ∨ t = ['-'] := by
    rw [Language.mem_add, Language.mem_one]
    exact or_congr_right ⟨fun ⟨c, hc, e⟩ => by simpa [CharSet.contains, e] using hc, fun h => by
      obtain rfl | rfl := h <;> exact ⟨_, rfl, rfl⟩⟩
  rw [one]
  constructor
  · rintro (rfl | rfl | rfl)
    · exact ⟨_, .none⟩
    · exact ⟨_, .plus⟩
    · exact ⟨_, .minus⟩
  · rintro ⟨_, _ | _ | _⟩ <;> simp

/-- One mark with three digits behind it, any number of times. -/
theorem mem_groups_iff : t ∈ (Regex.repeats 1 none ({[mark]} * Regex.repeats 3 (some 3) (Regex.ofSet .digit)) :
      TextLanguage) ↔ ∃ groups : List Text, groups ≠ [] ∧ (∀ g ∈ groups, g.length = 3) ∧
        (∀ c ∈ groups.flatten, isDigit c) ∧ t = groups.flatMap (mark :: ·) := by
  have group {w : Text} : w ∈ ({[mark]} * Regex.repeats 3 (some 3) (Regex.ofSet .digit) : TextLanguage) ↔
      ∃ g : Text, (g.length = 3 ∧ ∀ c ∈ g, isDigit c) ∧ mark :: g = w := by
    simp only [Language.mem_mul, Regex.mem_repeats_some_ofSet (Nat.le_refl 3), ← and_assoc,
      ← le_antisymm_iff, eq_comm (a := 3)]
    exact ⟨fun ⟨_, hm, g, hg, e⟩ => ⟨g, hg, by rw [← e, hm]; rfl⟩,
      fun ⟨g, hg, e⟩ => ⟨[mark], rfl, g, hg, e⟩⟩
  constructor
  · rintro ⟨k, pos, -, hw⟩
    obtain ⟨ws, rfl, rfl, each⟩ := Language.mem_pow.1 hw
    have tails : ∀ w ∈ ws, mark :: w.tail = w ∧ w.tail.length = 3 ∧ ∀ c ∈ w.tail, isDigit c := by
      intro w hw
      obtain ⟨g, own, rfl⟩ := group.1 (each w hw)
      exact ⟨rfl, own⟩
    refine ⟨ws.map List.tail, ?_, ?_, ?_, ?_⟩
    · rw [ne_eq, List.map_eq_nil_iff, ← ne_eq, ← List.length_pos_iff]
      exact pos
    · rw [List.forall_mem_map]
      exact fun w hw => (tails w hw).2.1
    · rw [List.forall_mem_flatten, List.forall_mem_map]
      exact fun w hw => (tails w hw).2.2
    · have whole : ws.map ((mark :: ·) ∘ List.tail) = ws :=
        (List.map_congr_left fun w hw => (tails w hw).1).trans (List.map_id ws)
      rw [List.flatMap_def, List.map_map, whole]
  · rintro ⟨groups, ne, three, digits, rfl⟩
    refine ⟨groups.length, List.length_pos_iff.2 ne, by simp, Language.mem_pow.2
      ⟨groups.map (mark :: ·), by rw [List.flatMap_def], by simp, ?_⟩⟩
    simp only [List.mem_map, forall_exists_index, and_imp, forall_apply_eq_imp_iff₂]
    exact fun g hg => group.2 ⟨g, ⟨three g hg, fun c hc => digits c (List.mem_flatten.2 ⟨g, hg, hc⟩)⟩, rfl⟩

/-- Digits by themselves, or a few of them with groups of three behind a mark each. -/
theorem mem_digits_iff : body ∈ (Regex.repeats 1 (some 3) (Regex.ofSet .digit) *
      Regex.repeats 1 none ({[mark]} * Regex.repeats 3 (some 3) (Regex.ofSet .digit)) +
      Regex.repeats 1 none (Regex.ofSet .digit) : TextLanguage) ↔ ∃ ds, Grouped isDigit mark body ds := by
  rw [Language.mem_add, Language.mem_mul, Regex.mem_repeats_ofSet]
  constructor
  · rintro (⟨first, hf, w, hw, rfl⟩ | ⟨ne, digits⟩)
    · obtain ⟨pos, few, own⟩ := (Regex.mem_repeats_some_ofSet (by decide)).1 hf
      obtain ⟨groups, more, three, digits, rfl⟩ := mem_groups_iff.1 hw
      exact ⟨_, .groups (List.length_pos_iff.1 pos) few more three
        (List.forall_mem_append.2 ⟨own, digits⟩)⟩
    · exact ⟨body, .plain (List.length_pos_iff.1 ne) digits⟩
  · rintro ⟨ds, grouped⟩
    cases grouped with
    | plain ne digits => exact .inr ⟨List.length_pos_iff.2 ne, digits⟩
    | @groups first groups ne few more three digits =>
      obtain ⟨own, digits⟩ := List.forall_mem_append.1 digits
      exact .inl ⟨first, (Regex.mem_repeats_some_ofSet (by decide)).2 ⟨List.length_pos_iff.2 ne, few, own⟩,
        _, mem_groups_iff.2 ⟨groups, more, three, digits, rfl⟩, rfl⟩

/-- The regex of whole numbers takes their texts. -/
theorem writes_wholeRegex (three : m.groupSize = 3) (d : Dialect) :
    Writes true d m.wholeRegex m.wholeLanguage := by
  have group : Writes true d (Regex.escapeChar m.grouping ++ Regex.digits 3)
      ({[m.grouping]} * Regex.repeats 3 (some 3) (Regex.ofSet .digit)) :=
    (Regex.writesAtom_escapeChar d m.grouping).writes.append (Regex.writes_digits d (by decide))
  have groups := (Regex.writes_digitsUpTo d (n := 3) (by decide) (by decide)).append
    (group.body.grouped.quantified (Regex.step_plus d))
  have plain : Writes true d "\\d+".toList (Regex.repeats 1 none (Regex.ofSet .digit)) :=
    (Regex.writesAtom_digit d).quantified (Regex.step_plus d)
  have either : WritesBody true d _ _ := groups.loosen.body.bar plain.loosen.body
  have whole : Writes true d _ _ := (writesAtom_sign d).optional.append either.grouped.writes
  have same : m.wholeLanguage = (1 + Regex.ofSet (.union (.single '+') (.single '-'))) *
      (Regex.repeats 1 (some 3) (Regex.ofSet .digit) *
        Regex.repeats 1 none ({[m.grouping]} * Regex.repeats 3 (some 3) (Regex.ofSet .digit)) +
        Regex.repeats 1 none (Regex.ofSet .digit)) := Language.ext fun w => by
    rw [Language.mem_mul]
    constructor
    · rintro ⟨negative, s, body, ds, sign, grouped, rfl⟩
      exact ⟨s, mem_sign_iff.2 ⟨negative, sign⟩, body, mem_digits_iff.2 ⟨ds, grouped⟩, rfl⟩
    · rintro ⟨s, hs, body, hb, rfl⟩
      obtain ⟨negative, sign⟩ := mem_sign_iff.1 hs
      obtain ⟨ds, grouped⟩ := mem_digits_iff.1 hb
      exact ⟨negative, s, body, ds, sign, grouped, rfl⟩
  rw [same, wholeRegex, three, List.append_assoc (Regex.digitsUpTo 3)]
  exact whole

/-- The texts of the fraction. -/
def fractionLanguage (m : NumberMarks) : TextLanguage :=
  {[m.decimal]} * Regex.repeats 1 none (Regex.ofSet .digit)

/-- The texts of numbers, with a fraction where `decimals` allows one. -/
def numberLanguage (m : NumberMarks) (decimals : Bool) : TextLanguage :=
  if decimals then m.wholeLanguage * (1 + m.fractionLanguage) else m.wholeLanguage

/-- The regex of numbers takes their texts. -/
theorem writes_regex (three : m.groupSize = 3) (d : Dialect) (decimals : Bool) :
    Writes true d (m.regex decimals) (m.numberLanguage decimals) := by
  cases decimals with
  | false => exact writes_wholeRegex three d
  | true =>
    have mark : Writes true d (Regex.escapeChar m.decimal) {[m.decimal]} :=
      (Regex.writesAtom_escapeChar d m.decimal).writes
    have digits : Writes true d "\\d+".toList (Regex.repeats 1 none (Regex.ofSet .digit)) :=
      (Regex.writesAtom_digit d).quantified (Regex.step_plus d)
    rw [regex, if_pos rfl, List.append_assoc]
    exact (writes_wholeRegex three d).append (mark.append digits).body.grouped.optional

/-- A text is accepted if it is one of a number. -/
theorem accepts_iff_mem {decimals : Bool} (three : m.groupSize = 3) :
    m.accepts decimals t ↔ t ∈ m.numberLanguage decimals := by
  have whole : Writes true .plain (Regex.grouped (m.regex decimals)) (m.numberLanguage decimals) :=
    (writes_regex three .plain decimals).body.grouped.writes
  obtain ⟨r, read, isMatch_iff⟩ := whole.read?_anchored
  rw [accepts, read]
  exact isMatch_iff t

/-- Without fractions, a text is accepted if it is one of a whole number. -/
theorem accepts_iff (three : m.groupSize = 3) : m.accepts false t ↔ t ∈ m.wholeLanguage :=
  accepts_iff_mem three

/-- The marks are neither digits nor signs. -/
def AreApart (m : NumberMarks) : Prop := ∀ c ∈ [m.grouping, m.decimal], isDigit c = false ∧ c ≠ '+' ∧ c ≠ '-'

instance (m : NumberMarks) : Decidable m.AreApart :=
  decidable_of_iff ([m.grouping, m.decimal].all fun c => !isDigit c && c != '+' && c != '-')
    (by simp [AreApart, and_assoc])

/-- In plain form a number is its sign and its digits. -/
theorem normalise_append (apart : m.AreApart) (sign : Sign negative s)
    (grouped : Grouped isDigit m.grouping body ds) : m.normalise (s ++ body) = s ++ ds := by
  have other (mark : Char) (h : isDigit mark = false ∧ mark ≠ '+' ∧ mark ≠ '-') : ∀ c ∈ s ++ ds, c ≠ mark := by
    rintro c hc rfl
    obtain hs | hd := List.mem_append.1 hc
    · cases sign <;> simp_all
    · simp [grouped.digits c hd] at h
  have grouping := other m.grouping (apart _ (by simp))
  have decimal := other m.decimal (apart _ (by simp))
  obtain ⟨signs, digits⟩ := List.forall_mem_append.1 grouping
  have plain : (s ++ body).filter (· != m.grouping) = s ++ ds := by
    rw [List.filter_append, grouped.filter_eq (by simpa using digits) (by simp),
      List.filter_eq_self.2 (by simpa using signs)]
  rw [normalise, plain]
  exact (List.map_congr_left fun c hc => by simp [decimal c hc]).trans (List.map_id _)

/-- What a text writes is said by its digits, and by the sign that it opens with. -/
theorem eq_of_writesWhole (apart : m.AreApart) (h : m.WritesWhole t n) :
    n = signed (t.head? == some '-') (digitsValue (t.filter isAsciiDigit)) := by
  obtain ⟨negative, s, body, ds, sign, grouped, rfl, rfl⟩ := h
  have drops : isAsciiDigit m.grouping = false := by
    have other := (apart m.grouping (by simp)).1
    cases own : isAsciiDigit m.grouping with
    | false => rfl
    | true => rw [isDigit_of_isAsciiDigit own] at other; cases other
  have front : s.filter isAsciiDigit = [] := by cases sign <;> rfl
  have head : ((s ++ body).head? == some '-') = negative := by
    obtain ⟨c, rest, rfl, digit⟩ := grouped.exists_cons
    cases sign with
    | none =>
      have ne : c ≠ '-' := by
        rintro rfl
        cases digit
      simp [ne]
    | plus => rfl
    | minus => rfl
  rw [List.filter_append, front, List.nil_append, grouped.filter_eq grouped.digits drops, head]

/-- Nothing is to be trimmed from a number. -/
theorem trim_of_writesWhole (h : m.WritesWhole t n) : t.trim = t := by
  obtain ⟨negative, s, body, ds, sign, grouped, rfl, -⟩ := h
  have opens : Text.startsBlank (s ++ body) = false := by
    obtain ⟨c, rest, rfl, digit⟩ := grouped.exists_cons
    cases sign with
    | none => exact isBlank_eq_false_of_isDigit (isDigit_of_isAsciiDigit digit)
    | plus => rfl
    | minus => rfl
  have closes : Text.endsBlank (s ++ body) = false := by
    obtain ⟨front, c, rfl, digit⟩ := grouped.exists_concat
    rw [← List.append_assoc, Text.endsBlank, List.getLast?_concat]
    exact isBlank_eq_false_of_isDigit (isDigit_of_isAsciiDigit digit)
  exact Text.trim_of_ink opens closes

/-- Digits with a mark in front of every three, counted from the end. -/
def inGroups (mark : Char) (ds : Text) : Text :=
  if ds.length ≤ 3 then ds
  else inGroups mark (ds.take (ds.length - 3)) ++ mark :: ds.drop (ds.length - 3)
termination_by ds.length
decreasing_by simp; omega

/-- A whole number as it is written with the marks between groups, or without any. -/
def write (m : NumberMarks) (groups : Bool) (n : Int) : Text :=
  let ds := Nat.toDigits 10 n.natAbs
  (if n < 0 then ['-'] else []) ++ if groups then inGroups m.grouping ds else ds

theorem grouped_inGroups (ne : ds ≠ []) (digits : ∀ c ∈ ds, p c) : Grouped p mark (inGroups mark ds) ds := by
  have cut : ∀ ds : Text, ds ≠ [] → ∃ (first : Text) (groups : List Text), first ≠ [] ∧ first.length ≤ 3 ∧
      (∀ g ∈ groups, g.length = 3) ∧ ds = first ++ groups.flatten ∧
      inGroups mark ds = first ++ groups.flatMap (mark :: ·) := by
    intro ds ne
    induction ds using inGroups.induct with
    | case1 ds few => exact ⟨ds, [], ne, few, by simp, by simp, by rw [inGroups, if_pos few]; simp⟩
    | case2 ds many ih =>
      obtain ⟨first, groups, ne, few, three, e, written⟩ := ih (by
        rw [← List.length_pos_iff, List.length_take]
        omega)
      refine ⟨first, groups ++ [ds.drop (ds.length - 3)], ne, few, ?_, ?_, ?_⟩
      · rw [List.forall_mem_append, List.forall_mem_singleton, List.length_drop]
        exact ⟨three, by omega⟩
      · rw [List.flatten_append, List.flatten_singleton, ← List.append_assoc, ← e, List.take_append_drop]
      · rw [inGroups, if_neg many, written]
        simp
  obtain ⟨first, groups, filled, few, three, rfl, written⟩ := cut ds ne
  rw [written]
  obtain rfl | more := eq_or_ne groups []
  · simp only [List.flatMap_nil, List.flatten_nil, List.append_nil] at digits ⊢
    exact .plain filled digits
  · exact .groups filled few more three digits

theorem writesWhole_write (m : NumberMarks) (groups : Bool) (n : Int) : m.WritesWhole (m.write groups n) n := by
  have sign : Sign (decide (n < 0)) (if n < 0 then ['-'] else []) := by
    by_cases h : n < 0
    · simpa [h] using Sign.minus
    · simpa [h] using Sign.none
  have ne : Nat.toDigits 10 n.natAbs ≠ [] := Nat.toDigits_ne_nil
  have row : Grouped isAsciiDigit m.grouping
      (if groups then inGroups m.grouping (Nat.toDigits 10 n.natAbs) else Nat.toDigits 10 n.natAbs)
      (Nat.toDigits 10 n.natAbs) := by
    cases groups
    · exact .plain ne isAsciiDigit_of_mem_toDigits
    · exact grouped_inGroups ne isAsciiDigit_of_mem_toDigits
  refine ⟨_, _, _, _, sign, row, rfl, ?_⟩
  rw [digitsValue_toDigits, signed]
  split <;> rename_i h <;> simp only [decide_eq_true_eq] at h <;> omega

end NumberMarks

theorem Locale.areApart_numberMarks (l : Locale) : l.numberMarks.AreApart := by
  rw [numberMarks]
  split <;> decide

namespace DataType

variable {l : Locale} {range : IntegerRange} {v : Value} {name : String} {kind : ValueKind}

/-- Whole numbers of a range around zero are read exactly. -/
theorem parse_number_eq_ok_iff (bounds : range.low ≤ 0 ∧ 0 ≤ range.high) :
    (number name kind false (readInteger range)).parse l t = .ok v ↔
      ∃ n, v = .integer n ∧ l.numberMarks.WritesWhole t.trim n ∧ range.contains n := by
  have accepts : l.numberMarks.accepts false t.trim ↔ t.trim ∈ l.numberMarks.wholeLanguage :=
    NumberMarks.accepts_iff l.groupSize_numberMarks
  have convert (plain : Text) : (∃ n, range.read plain = .ok n ∧ v = .integer n) ↔
      readInteger range plain = .ok v := by
    rw [readInteger]
    cases range.read plain <;> simp [eq_comm]
  have whole : (number name kind false (readInteger range)).parse l t = .ok v ↔
      ∃ plain, l.numberMarks.plainForm? false t = some plain ∧ readInteger range plain = .ok v := by
    rw [parse, number]
    cases h : l.numberMarks.plainForm? false t with
    | none => simp [h, Except.mapError]
    | some plain => cases h' : readInteger range plain <;> simp [h, h', Except.mapError]
  rw [whole]
  constructor
  · rintro ⟨plain, found, converted⟩
    rw [NumberMarks.plainForm?] at found
    split at found
    · rename_i accepted
      obtain ⟨negative, s, body, ds, sign, grouped, e⟩ := accepts.1 accepted
      cases found
      rw [e, NumberMarks.normalise_append l.areApart_numberMarks sign grouped] at converted
      obtain ⟨n, read, rfl⟩ := (convert _).2 converted
      obtain ⟨ascii, rfl, inside⟩ :=
        (IntegerRange.read_eq_ok_iff bounds sign grouped.digits_ne_nil grouped.digits).1 read
      exact ⟨_, rfl, ⟨negative, s, body, ds, sign, grouped.of_digits ascii, e, rfl⟩, inside⟩
    · cases found
  · rintro ⟨n, rfl, ⟨negative, s, body, ds, sign, grouped, e, rfl⟩, inside⟩
    have any := grouped.of_digits fun c hc => isDigit_of_isAsciiDigit (grouped.digits c hc)
    refine ⟨s ++ ds, ?_, (convert _).1 ⟨_, (IntegerRange.read_eq_ok_iff bounds sign any.digits_ne_nil
      any.digits).2 ⟨grouped.digits, rfl, inside⟩, rfl⟩⟩
    rw [NumberMarks.plainForm?, if_pos (accepts.2 ⟨negative, s, body, ds, sign, any, e⟩), e,
      NumberMarks.normalise_append l.areApart_numberMarks sign any]

/-- The type reads the whole numbers of a range as they are written in the locale, and nothing else. -/
structure ReadsWholeNumbers (type : DataType) (l : Locale) (low high : Int) : Prop where
  /-- A text is read as a number if it writes that number, blanks around it aside. -/
  reads_iff (t : Text) (n : Int) : type.parse l t = .ok (.integer n) ↔
    l.numberMarks.WritesWhole t.trim n ∧ low ≤ n ∧ n ≤ high
  /-- Any other text is refused, and the fault holds it as it is. -/
  refuses (t : Text) : (∀ n, ¬ (l.numberMarks.WritesWhole t.trim n ∧ low ≤ n ∧ n ≤ high)) →
    ∃ reason, type.parse l t = .error ⟨type.name, l, t, type.hints l, reason⟩
  /-- Every number is read from the text that writes it, with marks or without. -/
  rereads (groups : Bool) (n : Int) : low ≤ n → n ≤ high →
    type.parse l (l.numberMarks.write groups n) = .ok (.integer n)
  /-- What is a number in another locale too is the same number there. -/
  agrees (l' : Locale) (t : Text) (n n' : Int) : type.parse l t = .ok (.integer n) →
    l'.numberMarks.WritesWhole t.trim n' → n = n'

theorem readsWholeNumbers_number (bounds : range.low ≤ 0 ∧ 0 ≤ range.high) :
    (number name kind false (readInteger range)).ReadsWholeNumbers l range.low range.high := by
  have reads_iff (t : Text) (n : Int) :
      (number name kind false (readInteger range)).parse l t = .ok (.integer n) ↔
        l.numberMarks.WritesWhole t.trim n ∧ range.low ≤ n ∧ n ≤ range.high := by
    rw [parse_number_eq_ok_iff bounds]
    simp [IntegerRange.contains]
  refine ⟨reads_iff, fun t none => ?_, fun groups n ge le => ?_, fun l' t n n' read written => ?_⟩
  · cases h : (number name kind false (readInteger range)).parse l t with
    | ok v =>
      obtain ⟨n, rfl, -⟩ := (parse_number_eq_ok_iff bounds).1 h
      exact absurd ((reads_iff t n).1 h) (none n)
    | error fault =>
      rw [parse] at h
      cases own : (number name kind false (readInteger range)).read l t with
      | ok v => rw [own] at h; cases h
      | error reason => rw [own] at h; cases h; exact ⟨reason, rfl⟩
  · have written := l.numberMarks.writesWhole_write groups n
    rw [reads_iff, NumberMarks.trim_of_writesWhole written]
    exact ⟨written, ge, le⟩
  · rw [NumberMarks.eq_of_writesWhole l.areApart_numberMarks ((reads_iff t n).1 read).1,
      NumberMarks.eq_of_writesWhole l'.areApart_numberMarks written]

/-- In every locale whole numbers are read exactly: those of 64 bits under any name, and those of 32
bits. -/
theorem readsWholeNumbers_standard (l : Locale) :
    (∀ name, (long name).ReadsWholeNumbers l (-2 ^ 63) (2 ^ 63 - 1)) ∧
      integer.ReadsWholeNumbers l (-2 ^ 31) (2 ^ 31 - 1) := by
  have long : IntegerRange.signed64.low ≤ 0 ∧ 0 ≤ IntegerRange.signed64.high := by decide
  have short : IntegerRange.signed32.low ≤ 0 ∧ 0 ≤ IntegerRange.signed32.high := by decide
  exact ⟨fun _ => readsWholeNumbers_number long, readsWholeNumbers_number short⟩

end DataType
end StepMatch
