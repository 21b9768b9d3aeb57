import StepMatch.Proofs.Assertion.Unmistakable
import StepMatch.Proofs.DataType.Openings

/-!
# Phrases mean what they say

Whoever says a phrase of a standard factory, in whatever white space, gets the assertion that the key of
the phrase asks for, about the value that was said. What a key asks for is stated here in words of orders,
whole numbers and parts of texts.
-/

namespace StepMatch

open Regex (Accepts Apart IsShared ClosesInInk IsApartText)

/-! ### What the keys ask for -/

namespace Comparison

/-- What a key asks of a value that stands in an order to the reference. -/
def Asks : String → Ordering → Prop
  | "equal", o => o = .eq
  | "not-equal", o => o ≠ .eq
  | "greater", o => o = .gt
  | "greater-or-equal", o => o ≠ .lt
  | "less", o => o = .lt
  | "less-or-equal", o => o ≠ .gt
  | _, _ => False

/-- What a key asks of a whole number, with another one as the reference. -/
def AsksOfIntegers : String → Int → Int → Prop
  | "equal", m, n => m = n
  | "not-equal", m, n => m ≠ n
  | "greater", m, n => m > n
  | "greater-or-equal", m, n => m ≥ n
  | "less", m, n => m < n
  | "less-or-equal", m, n => m ≤ n
  | _, _, _ => False

/-- An assertion tests values as a key asks, with a reference. -/
structure Tests (key : String) (expected : Value) (a : Assertion) : Prop where
  /-- A value passes if it can be compared, and the comparison is as asked. -/
  test_iff (x : Value) : a.test x = true ↔ ∃ o, x.order? expected = some o ∧ Asks key o
  integers (m n : Int) : expected = .integer n → (a.test (.integer m) = true ↔ AsksOfIntegers key m n)
  incomparable (x : Value) : x.order? expected = none → a.test x = false

variable {key : String} {c : Comparison}

theorem key_of_ofKey? (h : ofKey? key = some c) : c.key = key := by
  have found := List.find?_some (p := fun c : Comparison => c.key == key) h
  exact eq_of_beq found

/-- A comparison holds for the orders that its key asks for. -/
theorem holds_iff_asks (c : Comparison) (o : Ordering) : c.holds o = true ↔ Asks c.key o := by
  cases c <;> cases o <;> simp [holds, Asks, key]

theorem asks_compare_iff (c : Comparison) (m n : Int) :
    Asks c.key (compare m n) ↔ AsksOfIntegers c.key m n := by
  cases c <;> simp only [key, Asks, AsksOfIntegers, ne_eq, compare_eq_iff_eq, compare_gt_iff_gt, compare_lt_iff_lt] <;> omega

theorem tests_assertion (c : Comparison) (name : String) (expected : Value) :
    Tests c.key expected (c.assertion name expected) where
  test_iff x := by
    change (x.order? expected).any c.holds = true ↔ _
    rw [Option.any_eq_true]
    simp only [holds_iff_asks]
  integers m n := by
    rintro rfl
    change (some (compare m n)).any c.holds = true ↔ _
    rw [Option.any_some, holds_iff_asks, asks_compare_iff]
  incomparable x none := by
    change (x.order? expected).any c.holds = false
    rw [none]
    rfl

end Comparison

theorem Text.isWithin_iff {part t : Text} : part.isWithin t = true ↔ part <:+: t := by
  induction t with
  | nil => simp [Text.isWithin]
  | cons c t ih => simp [Text.isWithin, ih, List.infix_cons_iff]

/-- A text is another one in quotes. -/
def IsQuoted (v r : Text) : Prop :=
  v = Text.doubleQuote :: (r ++ [Text.doubleQuote]) ∨
    v = DataType.singleQuote :: (r ++ [DataType.singleQuote])

namespace TextCheck

/-- What a key asks of a text, with another one as the reference. -/
def Asks : String → Text → Text → Prop
  | "equal", r, t => t = r
  | "not-equal", r, t => t ≠ r
  | "starts-with", r, t => r <+: t
  | "ends-with", r, t => r <:+ t
  | "contains", r, t => r <:+: t
  | "not-contains", r, t => ¬ r <:+: t
  | "empty", _, t => t = []
  | "not-empty", _, t => t ≠ []
  | _, _, _ => False

/-- An assertion tests texts as a key asks, with what is in the quotes as the reference. Other values
fail. -/
def Tests (key : String) (v : Text) (a : Assertion) : Prop :=
  ∃ r, IsQuoted v r ∧ ∀ x, a.test x = true ↔ ∃ t, x.text? = some t ∧ Asks key r t

/-- The check of a key holds for what the key asks for. -/
theorem holds_iff_asks {name key : String} {reference? : Option Text} {r : Text} {c : TextCheck}
    (found : AssertionFactory.textCheck name key reference? = .ok c)
    (given : ∀ r', reference? = some r' → r' = r) (t : Text) : c.holds t = true ↔ Asks key r t := by
  unfold AssertionFactory.textCheck at found
  split at found
  · rename_i bare
    cases found
    unfold bare? at bare
    split at bare <;> cases bare <;> simp [holds, Asks]
  · rename_i taking
    cases found
    obtain rfl := given _ rfl
    unfold withReference? at taking
    split at taking <;> cases taking <;> simp [holds, Asks, ← Text.isWithin_iff]
  · cases found
  · cases found

end TextCheck

/-! ### Whoever says a phrase -/

namespace AssertionFactory

/-- Whoever says a phrase of the factory in the locale, with a value of the data type and any white space,
gets an assertion with a property of the key, of the text of the value and of the value. -/
def Means (f : AssertionFactory) (type : DataType) (l : Locale)
    (P : String → Text → Value → Assertion → Prop) : Prop :=
  ∃ phrases, f.phrases l = .ok phrases ∧ ∀ p ∈ phrases.phrases, ∀ v expected,
    Accepts (type.regex l) v → type.parse l v = .ok expected →
      ∀ left t right, (∀ c ∈ left ++ right, isBlank c) → Says v p.template t →
        ∃ a, f.resolve l (left ++ (t ++ right)) = .ok a ∧ P p.key v expected a

variable {f : AssertionFactory} {type : DataType} {l : Locale} {L : TextLanguage} {name : String}
  {entries : List PhraseEntry} {P : String → Text → Value → Assertion → Prop}

/-- No phrase is taken for another one. -/
theorem means_of_unmistakable (made : f.phrases l = PhraseSet.ofEntries entries (type.regex l))
    (shared : IsShared (type.regex l) L) (ne : entries ≠ []) (sure : Unmistakable entries L)
    (builds : ∀ e ∈ entries, ∀ v expected, v ∈ L → type.parse l v = .ok expected →
      ∃ a, f.build e.key (if e.takesValue then some v else none) l = .ok a ∧ P e.key v expected a) :
    f.Means type l P := by
  have few (e : PhraseEntry) (he : e ∈ entries) := PhraseEntry.few_of_isTrim (sure.isTrim e he)
  obtain ⟨s, ok, own⟩ := PhraseSet.exists_ofEntries shared ne few
  refine ⟨s, made.trans ok, ?_⟩
  intro p hp v expected accepted parsed left t right blank said
  have he := PhraseSet.mem_of_mem_phrases ok hp
  have value : v ∈ L := by
    rw [← shared.accepted_eq]
    exact accepted
  obtain ⟨v?, written, which⟩ := said.phrased (few _ he) value
  have closes : ClosesInInk L := fun v hv => ⟨(sure.values v hv).1, (sure.values v hv).2.2⟩
  obtain ⟨opens, ends⟩ := PhraseEntry.edges_of_phrased (sure.isTrim _ he) closes written
  have trimmed : Text.trim (left ++ (t ++ right)) = t := Text.trim_padded blank opens ends
  obtain ⟨e', he', v?', resolved, fits⟩ := PhraseSet.exists_resolve?_of_forall₂ own.phrases
    (t := left ++ (t ++ right)) ⟨_, he, v?, by rwa [trimmed]⟩
  rw [trimmed] at fits
  obtain ⟨same, same'⟩ := sure.eq_of_phrased he he' written fits
  subst same same'
  obtain ⟨a, built, holds⟩ := builds _ he v expected value parsed
  refine ⟨a, ?_, holds⟩
  rw [resolve, made, ok]
  simp only [Except.bind, resolved]
  rw [which]
  exact built

end AssertionFactory

/-! ### The standard phrases -/

/-- What a value of the phrases is to be apart from: every blank, and every word of the phrases. -/
def PhraseEntry.openings (entries : List PhraseEntry) : List Text :=
  blankChars.map ([·]) ++ entries.flatMap PhraseEntry.words

/-- Where the words of one phrase open another one, the first of them takes a value, and a word of the
phrases is next in the other one. -/
def PhraseEntry.AreDistinct (entries : List PhraseEntry) : Prop :=
  ∀ e ∈ entries, e.isTrim ∧ e.isSpaced ∧ ∀ e' ∈ entries, e ≠ e' → e.words <+: e'.words →
    e.takesValue ∧ ∃ b ∈ entries.flatMap PhraseEntry.words, e.words ++ [b] <+: e'.words

instance (entries : List PhraseEntry) : Decidable (PhraseEntry.AreDistinct entries) := by
  unfold PhraseEntry.AreDistinct
  infer_instance

variable {entries : List PhraseEntry} {L : TextLanguage} {l : Locale}

theorem unmistakable_of_apart (distinct : PhraseEntry.AreDistinct entries) (closes : ClosesInInk L)
    (apart : ∀ b ∈ PhraseEntry.openings entries, Apart b L) : Unmistakable entries L where
  isTrim e he := (distinct e he).1
  isSpaced e he := (distinct e he).2.1
  values v hv := by
    obtain ⟨ne, ends⟩ := closes v hv
    refine ⟨ne, ?_, ends⟩
    obtain ⟨c, v, rfl⟩ := List.exists_cons_of_ne_nil ne
    by_contra blank
    have opens : isBlank c = true := by simpa [Text.startsBlank] using blank
    have mem : [c] ∈ PhraseEntry.openings entries :=
      List.mem_append_left _ (List.mem_map_of_mem (mem_blankChars opens))
    exact (apart [c] mem _ hv).1 (List.prefix_append [c] v)
  continues e he e' he' ne opens := by
    obtain ⟨takes, b, mem, longer⟩ := (distinct e he).2.2 e' he' ne opens
    exact ⟨takes, b, longer, apart b (List.mem_append_right _ mem)⟩

/-- The phrases of each table are distinct. -/
theorem PhraseTable.areDistinct {table : PhraseTable} (h : table ∈ [numeric, temporal])
    (language : PhraseLanguage) : PhraseEntry.AreDistinct (table language ++ symbols) := by
  have each : ∀ table ∈ [numeric, temporal], ∀ language ∈ [PhraseLanguage.english, .spanish],
      PhraseEntry.AreDistinct (table language ++ symbols) := by
    decide +kernel
  exact each table h language (by cases language <;> simp)

theorem TextCheck.areDistinct (language : PhraseLanguage) :
    PhraseEntry.AreDistinct (phrases language) := by
  cases language <;> decide +kernel

/-- No phrase has a word that a number opens with. -/
theorem PhraseTable.openings_plain {table : PhraseTable} (h : table ∈ [numeric, temporal])
    (language : PhraseLanguage) :
    ∀ b ∈ PhraseEntry.openings (table language ++ symbols), ∃ c b', b = c :: b' ∧ isPlainInitial c := by
  have each : ∀ table ∈ [numeric, temporal], ∀ language ∈ [PhraseLanguage.english, .spanish],
      ∀ b ∈ PhraseEntry.openings (table language ++ symbols), b.head?.any isPlainInitial := by
    decide +kernel
  intro b hb
  obtain ⟨c, head, plain⟩ :=
    (Option.any_eq_true _ _).1 (each table h language (by cases language <;> simp) b hb)
  obtain ⟨b', rfl⟩ := List.head?_eq_some_iff.1 head
  exact ⟨c, b', rfl, plain⟩

/-- No date of a locale opens with a word of the phrases in its language. Names of months come first in
the United States alone, where the phrases are in English. -/
theorem Locale.differs_openings (l : Locale) :
    ∀ b ∈ PhraseEntry.openings (PhraseTable.temporal l.phraseLanguage ++ PhraseTable.symbols),
      ∀ d ∈ l.dateLayouts, d.differs l.monthNames b := by
  have american : ∀ b ∈ PhraseEntry.openings (PhraseTable.temporal .english ++ PhraseTable.symbols),
      ∀ d ∈ DateLayout.american, d.differs .english b := by
    decide +kernel
  have other : ∀ d ∈ DateLayout.spanish ++ DateLayout.german ++ DateLayout.portuguese ++
      DateLayout.eastAsian ++ DateLayout.european, ∀ b, d.differs l.monthNames b := by
    have first : ∀ d ∈ DateLayout.spanish ++ DateLayout.german ++ DateLayout.portuguese ++
        DateLayout.eastAsian ++ DateLayout.european, d.first = .day ∨ d.first = .year := by
      decide +kernel
    intro d hd b
    rw [DateLayout.differs]
    obtain own | own := first d hd <;> rw [own]
  intro b hb d hd
  rw [dateLayouts] at hd
  split at hd
  · rename_i us
    have english : l.phraseLanguage = .english ∧ l.monthNames = .english := by
      unfold isAmerican at us
      unfold phraseLanguage monthNames
      split at us
      · rename_i found
        rw [found]
        exact ⟨rfl, rfl⟩
      · cases us
      · rename_i found
        rw [found]
        exact ⟨rfl, rfl⟩
    rw [english.1] at hb
    rw [english.2]
    exact american b hb d hd
  · split at hd <;> exact other d (by simp [hd]) b

/-! ### The standard factories -/

namespace AssertionFactory

variable {name : String}

/-- A factory that compares, for values that are apart from the phrases. -/
theorem means_comparing {table : PhraseTable} (mem : table ∈ [PhraseTable.numeric, .temporal])
    {type : DataType} (value : Regex.IsValueText (type.regex l))
    (apart : ∀ b ∈ PhraseEntry.openings (table l.phraseLanguage ++ PhraseTable.symbols),
      IsApartText b (type.regex l)) :
    (comparing name type table).Means type l fun key _ expected => Comparison.Tests key expected := by
  obtain ⟨L, shared, closes⟩ := value
  have sure := unmistakable_of_apart (PhraseTable.areDistinct mem l.phraseLanguage) closes
    fun b hb => (apart b hb).apart shared
  refine means_of_unmistakable rfl shared (by simp [PhraseTable.symbols]) sure ?_
  intro e he v expected _ parsed
  obtain ⟨-, takes, known⟩ := PhraseTable.known mem l.phraseLanguage e he
  obtain ⟨c, found⟩ := Option.isSome_iff_exists.1 known
  refine ⟨c.assertion name expected, ?_, ?_⟩
  · change buildComparison name type e.key _ l = _
    simp only [buildComparison, found, takes, if_true, parsed]
  · rw [← Comparison.key_of_ofKey? found]
    exact c.tests_assertion name expected

/-- What stands in quotes is read without them. -/
theorem isQuoted_of_parse {v : Text} {expected : Value}
    (h : DataType.quotedText.parse l v = .ok expected) : ∃ r, expected = .text r ∧ IsQuoted v r := by
  have unquoted {quote : Char} {inner : Text} (h : DataType.unquote? quote v = some inner) :
      v = quote :: (inner ++ [quote]) := by
    unfold DataType.unquote? at h
    split at h
    · split at h
      · rename_i c t both
        rw [Bool.and_eq_true, beq_iff_eq, beq_iff_eq] at both
        obtain ⟨rfl, last⟩ := both
        obtain ⟨front, rfl⟩ := List.getLast?_eq_some_iff.1 last
        cases h
        rw [List.dropLast_concat]
      · cases h
    · cases h
  cases double : DataType.unquote? Text.doubleQuote v with
  | some inner =>
    have read : DataType.quotedText.parse l v = .ok (.text inner) := by
      simp only [DataType.parse, DataType.quotedText, DataType.fixed, double]
      rfl
    rw [read] at h
    cases h
    exact ⟨inner, rfl, .inl (unquoted double)⟩
  | none =>
    cases single : DataType.unquote? DataType.singleQuote v with
    | some inner =>
      have read : DataType.quotedText.parse l v = .ok (.text inner) := by
        simp only [DataType.parse, DataType.quotedText, DataType.fixed, double, single]
        rfl
      rw [read] at h
      cases h
      exact ⟨inner, rfl, .inr (unquoted single)⟩
    | none =>
      simp only [DataType.parse, DataType.quotedText, DataType.fixed, double, single] at h
      cases h

theorem means_checkingTexts :
    (checkingTexts name .quotedText).Means .quotedText l fun key v _ => TextCheck.Tests key v := by
  have apart : ∀ language ∈ [PhraseLanguage.english, .spanish],
      ∀ b ∈ PhraseEntry.openings (TextCheck.phrases language),
        b.head?.any fun c => c != Text.doubleQuote && c != DataType.singleQuote := by
    decide +kernel
  have closes : ClosesInInk (DataType.betweenQuotes Text.doubleQuote +
      DataType.betweenQuotes DataType.singleQuote) :=
    (DataType.closesInInk_betweenQuotes rfl).add (DataType.closesInInk_betweenQuotes rfl)
  have sure := unmistakable_of_apart (TextCheck.areDistinct l.phraseLanguage) closes fun b hb => by
    obtain ⟨c, head, plain⟩ := (Option.any_eq_true _ _).1
      (apart l.phraseLanguage (by cases l.phraseLanguage <;> simp) b hb)
    obtain ⟨b', rfl⟩ := List.head?_eq_some_iff.1 head
    rw [Bool.and_eq_true, bne_iff_ne, bne_iff_ne] at plain
    exact (DataType.apart_betweenQuotes plain.1).add (DataType.apart_betweenQuotes plain.2)
  refine means_of_unmistakable rfl (DataType.isShared_quotedText l)
    (by cases l.phraseLanguage <;> simp [TextCheck.phrases]) sure ?_
  intro e he v expected _ parsed
  obtain ⟨r, rfl, quoted⟩ := isQuoted_of_parse parsed
  change ∃ a, buildTextCheck name .quotedText e.key _ l = .ok a ∧ TextCheck.Tests e.key v a
  have known := (TextCheck.known l.phraseLanguage e he).2
  have tests {reference? : Option Text} {c : TextCheck}
      (found : textCheck name e.key reference? = .ok c) (given : ∀ r', reference? = some r' → r' = r) :
      TextCheck.Tests e.key v (c.assertion name) := by
    refine ⟨r, quoted, fun x => ?_⟩
    change x.text?.any c.holds = true ↔ _
    rw [Option.any_eq_true]
    simp only [TextCheck.holds_iff_asks found given]
  split
  · obtain ⟨c, found⟩ := exists_textCheck name (some r) (known.imp_right fun taking => ⟨rfl, taking.2⟩)
    refine ⟨c.assertion name, ?_, tests found fun r' h => (Option.some.inj h).symm⟩
    have own : referenceOf (.text r) = r := rfl
    simp only [buildTextCheck, Option.map_some, parsed, own, found, Except.map]
  · rename_i bare
    obtain ⟨c, found⟩ := exists_textCheck name none
      (known.imp_right fun taking => absurd taking.1 bare)
    refine ⟨c.assertion name, ?_, tests found fun r' h => by cases h⟩
    simp only [buildTextCheck, Option.map_none, found, Except.map]

end AssertionFactory

namespace AssertionFactories

/-- The standard factories that compare, with the data types of their values and their phrases. -/
def comparisons : List (String × DataType × PhraseTable) :=
  [("number-assertion", .long "number", .numeric), ("integer-assertion", .integer, .numeric),
   ("decimal-assertion", .decimal "decimal", .numeric), ("date-assertion", .date, .temporal),
   ("time-assertion", .time, .temporal), ("datetime-assertion", .dateTime, .temporal)]

theorem means_of_mem_comparisons {name : String} {type : DataType} {table : PhraseTable}
    (mem : (name, type, table) ∈ comparisons) (l : Locale) :
    (AssertionFactory.comparing name type table).Means type l
      fun key _ expected => Comparison.Tests key expected := by
  have numeric {type : DataType} (decimals : Bool)
      (own : type.regex l = l.numberMarks.regex decimals) :
      (AssertionFactory.comparing name type .numeric).Means type l
        fun key _ expected => Comparison.Tests key expected := by
    refine AssertionFactory.means_comparing (by simp) ?_ fun b hb => ?_
    · rw [own]
      exact NumberMarks.isValueText_regex l.groupSize_numberMarks decimals
    · obtain ⟨c, b, rfl, plain⟩ := PhraseTable.openings_plain (by simp) l.phraseLanguage b hb
      rw [own]
      exact NumberMarks.isApartText_regex l.groupSize_numberMarks plain decimals
  have temporal (own : String) (form : TemporalForm) :
      (AssertionFactory.comparing name (.temporal own form) .temporal).Means (.temporal own form) l
        fun key _ expected => Comparison.Tests key expected := by
    refine AssertionFactory.means_comparing (by simp) (DataType.isValueText_temporal own form l)
      fun b hb => ?_
    obtain ⟨c, b, rfl, plain⟩ := PhraseTable.openings_plain (by simp) l.phraseLanguage b hb
    exact DataType.isApartText_temporal own form plain (l.differs_openings _ hb)
  simp only [comparisons, List.mem_cons, Prod.mk.injEq, List.not_mem_nil, or_false] at mem
  obtain ⟨-, rfl, rfl⟩ | ⟨-, rfl, rfl⟩ | ⟨-, rfl, rfl⟩ | ⟨-, rfl, rfl⟩ | ⟨-, rfl, rfl⟩ | ⟨-, rfl, rfl⟩ := mem
  · exact numeric false rfl
  · exact numeric false rfl
  · exact numeric true rfl
  · exact temporal _ .date
  · exact temporal _ .time
  · exact temporal _ .dateTime

/-- In every locale, the phrases of the standard factories mean what they say. A factory that compares
gives an assertion that orders values as the key of the phrase asks, against the value that was said; the
factory for texts gives one that checks texts as the key asks, against what is in the quotes. -/
theorem means_standard {name : String} {factory : AssertionFactory}
    (found : standard.find name = .ok factory) (l : Locale) :
    (∃ type table, (factory.name, type, table) ∈ comparisons ∧
      factory = .comparing factory.name type table ∧
      factory.Means type l fun key _ expected => Comparison.Tests key expected) ∨
    (factory = .checkingTexts "text-assertion" .quotedText ∧
      factory.Means .quotedText l fun key v _ => TextCheck.Tests key v) := by
  obtain mem | found := Registry.mem_of_find_registerAll found
  · have same : factory ∈ comparisons.map (fun x => AssertionFactory.comparing x.1 x.2.1 x.2.2) ++
        [.checkingTexts "text-assertion" .quotedText] := mem
    obtain compares | texts := List.mem_append.1 same
    · obtain ⟨⟨name, type, table⟩, own, rfl⟩ := List.mem_map.1 compares
      exact .inl ⟨type, table, own, rfl, means_of_mem_comparisons own l⟩
    · obtain rfl := List.mem_singleton.1 texts
      exact .inr ⟨rfl, AssertionFactory.means_checkingTexts⟩
  · cases Registry.get?_of_find found

/-- So a sign with tabs behind it and blanks around asks for greater numbers. -/
theorem means_standard_of_greater : ∃ factory a, standard.find "number-assertion" = .ok factory ∧
    factory.resolve .default (' ' :: ">\t\t1,000 ".toList) = .ok a ∧
    (∀ m : Int, a.test (.integer m) = true ↔ m > 1000) ∧ a.test (.text ['x']) = false := by
  let factory : AssertionFactory := .comparing "number-assertion" (.long "number") .numeric
  have found : standard.find "number-assertion" = .ok factory := rfl
  let v : Text := "1,000".toList
  obtain ⟨type, table, mem, -, phrases, made, each⟩ | ⟨same, -⟩ := means_standard found .default
  · have own : type = .long "number" ∧ table = .numeric := by
      simpa [comparisons, factory, AssertionFactory.comparing] using mem
    obtain ⟨rfl, -⟩ := own
    have phrased : (factory.phrases .default).toOption.any fun s =>
        s.phrases.any fun p => p.key == "greater" && p.template == '>' :: ' ' :: valuePlaceholder := by
      decide +kernel
    rw [made, Except.toOption, Option.any_some] at phrased
    obtain ⟨p, hp, both⟩ := List.any_eq_true.1 phrased
    rw [Bool.and_eq_true, beq_iff_eq, beq_iff_eq] at both
    obtain ⟨r, read, accepted⟩ := (Option.any_eq_true _ _).1 (show (Regex.read? .extended
      (Regex.anchored (Regex.grouped ((DataType.long "number").regex .default)))).any
        (Regex.isMatch · v) from by decide +kernel)
    have parsed : (DataType.long "number").parse .default v = .ok (.integer 1000) := by rfl
    have said : Says v ('>' :: ' ' :: valuePlaceholder) ('>' :: (['\t', '\t'] ++ (v ++ []))) :=
      .char (by decide) (by decide) (.space (by decide) (by simp [isBlank]) (.value .nil))
    rw [← both.2] at said
    obtain ⟨a, resolved, tests⟩ := each p hp v (.integer 1000) ⟨r, read, accepted⟩ parsed [' '] _ [' ']
      (by simp [isBlank]) said
    rw [both.1] at tests
    exact ⟨factory, a, found, resolved, fun m => tests.integers m 1000 rfl, tests.incomparable _ rfl⟩
  · exact absurd (congrArg AssertionFactory.name same) (by decide)

end AssertionFactories

end StepMatch
