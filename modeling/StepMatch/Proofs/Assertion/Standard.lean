import StepMatch.Proofs.Assertion.Phrases
import StepMatch.Proofs.DataType.Standard

/-!
# The standard factories know their phrases

Whatever the phrases of a standard factory take in a sentence, the factory makes something of it: the
text is resolved, the factory builds something under the key that is found, and there is a value when
that needs one. So only the value itself can be at fault, and never that of a text assertion, whose values
are in quotes.
-/

namespace StepMatch

open Regex (isLocalText Accepts IsShared IsValueText ClosesInInk WritesAtom Writes)

variable {l : Locale} {t w : Text} {v? : Option Text} {L : TextLanguage} {name : String}
  {type : DataType} {entries : List PhraseEntry}

namespace AssertionFactory

/-- The factory has phrases in the locale, and what they take in a sentence is resolved to a key and a
value with an outcome as given. -/
def Resolves (f : AssertionFactory) (l : Locale) (P : Except AssertionFault Assertion → Prop) : Prop :=
  ∃ phrases, f.phrases l = .ok phrases ∧ isLocalText phrases.regex ∧
    ∀ t, Accepts phrases.regex t →
      ∃ key v?, phrases.resolve? t = some (key, v?) ∧ P (f.build key v? l)

variable {f : AssertionFactory} {P Q : Except AssertionFault Assertion → Prop}

theorem Resolves.mono (h : f.Resolves l P) (sub : ∀ x, P x → Q x) : f.Resolves l Q := by
  obtain ⟨phrases, found, loc, each⟩ := h
  refine ⟨phrases, found, loc, fun t accepts => ?_⟩
  obtain ⟨key, v?, resolved, holds⟩ := each t accepts
  exact ⟨key, v?, resolved, sub _ holds⟩

/-- A factory with trim phrases for values that close with ink, and that builds something under each key
with or without a value as the phrases have it. -/
theorem resolves_of_entries (made : f.phrases l = PhraseSet.ofEntries entries (type.regex l))
    (shared : IsShared (type.regex l) L) (closes : ClosesInInk L)
    (ne : entries ≠ []) (trim : ∀ e ∈ entries, e.isTrim)
    (builds : ∀ e ∈ entries, ∀ t v?, Phrased L (templateParts e.template) t v? →
      P (f.build e.key v? l)) : f.Resolves l P := by
  obtain ⟨s, ok, own⟩ := PhraseSet.exists_ofEntries shared ne fun e he =>
    PhraseEntry.few_of_isTrim (trim e he)
  refine ⟨s, made.trans ok, own.isLocalText, fun t accepts => ?_⟩
  have written := own.accepts_iff.1 accepts
  have trimmed : t.trim = t := by
    obtain ⟨e, he, v?, written⟩ := written
    exact PhraseEntry.trim_of_phrased (trim e he) closes written
  obtain ⟨e, he, v?, resolved, fits⟩ := own.exists_resolve? trimmed written
  exact ⟨e.key, v?, resolved, builds e he t v? fits⟩

/-- The outcome is an assertion, or the fault of a value. -/
def BuildsOrRefusesValue (x : Except AssertionFault Assertion) : Prop :=
  (∃ a, x = .ok a) ∨ ∃ fault, x = .error (.unreadable fault)

/-- The outcome is an assertion. -/
def Builds (x : Except AssertionFault Assertion) : Prop := ∃ a, x = .ok a

end AssertionFactory

/-- The phrases of both tables have the key of a comparison, and take a value. -/
theorem PhraseTable.known {table : PhraseTable} (h : table ∈ [numeric, temporal])
    (language : PhraseLanguage) : ∀ e ∈ table language ++ symbols,
      e.isTrim ∧ e.takesValue ∧ (Comparison.ofKey? e.key).isSome := by
  have each : ∀ table ∈ [numeric, temporal], ∀ language ∈ [PhraseLanguage.english, .spanish],
      ∀ e ∈ table language ++ symbols,
        e.isTrim ∧ e.takesValue ∧ (Comparison.ofKey? e.key).isSome := by
    decide +kernel
  exact each table h language (by cases language <;> simp)

/-- The phrases for texts have the key of a check, and take a value if that one needs it. -/
theorem TextCheck.known (language : PhraseLanguage) : ∀ e ∈ phrases language, e.isTrim ∧
    ((bare? e.key).isSome ∨ e.takesValue ∧ (withReference? e.key).isSome) := by
  have each : ∀ language ∈ [PhraseLanguage.english, .spanish], ∀ e ∈ phrases language, e.isTrim ∧
      ((bare? e.key).isSome ∨ e.takesValue ∧ (withReference? e.key).isSome) := by
    decide +kernel
  exact each language (by cases language <;> simp)

namespace DataType

/-- Anything between two quotes of a kind. -/
def betweenQuotes (quote : Char) : TextLanguage :=
  {[quote]} * (Regex.repeats 0 none (Regex.ofSet (.complement (.single quote))) * {[quote]})

theorem unquote?_of_mem {quote : Char} (h : w ∈ betweenQuotes quote) : (unquote? quote w).isSome := by
  obtain ⟨_, rfl, _, ⟨u, -, _, rfl, rfl⟩, rfl⟩ := h
  simp [unquote?]

theorem closesInInk_betweenQuotes {quote : Char} (ink : isBlank quote = false) :
    ClosesInInk (betweenQuotes quote) := ((ClosesInInk.singleton ink).mul _).mul _

/-- Quotes of a kind with anything else between them. -/
theorem writes_betweenQuotes {quote : Char} {d : Regex.Dialect} (sign : Regex.escapeChar quote = [quote])
    (other : WritesAtom d ['[', '^', quote, ']'] (Regex.ofSet (.complement (.single quote)))) :
    Writes false d (quote :: (['[', '^', quote, ']'] ++ ['*'] ++ [quote])) (betweenQuotes quote) := by
  have own : WritesAtom d [quote] {[quote]} := sign ▸ Regex.writesAtom_escapeChar d quote
  exact own.writes.append ((other.quantified (Regex.step_star d)).append own.writes)

theorem isShared_quotedText (l : Locale) : IsShared (quotedText.regex l)
    (betweenQuotes Text.doubleQuote + betweenQuotes singleQuote) := by
  intro d
  have double : WritesAtom d ['[', '^', Text.doubleQuote, ']']
      (Regex.ofSet (.complement (.single Text.doubleQuote))) := .ofSet (.ofState fun s plain => by
    obtain ⟨mode, inner, outer, names⟩ := s
    cases plain
    rfl)
  have single : WritesAtom d ['[', '^', singleQuote, ']']
      (Regex.ofSet (.complement (.single singleQuote))) := .ofSet (.ofState fun s plain => by
    obtain ⟨mode, inner, outer, names⟩ := s
    cases plain
    rfl)
  exact (writes_betweenQuotes rfl double).body.bar (writes_betweenQuotes rfl single).body

/-- Text between quotes can always be read. -/
theorem exists_parse_quotedText (h : w ∈ betweenQuotes Text.doubleQuote + betweenQuotes singleQuote) :
    ∃ v, quotedText.parse l w = .ok v := by
  have either := ((Language.mem_add _ _ _).1 h).imp unquote?_of_mem unquote?_of_mem
  have some : (unquote? Text.doubleQuote w <|> unquote? singleQuote w).isSome := by
    simpa using either
  obtain ⟨inner, found⟩ := Option.isSome_iff_exists.1 some
  refine ⟨.text inner, ?_⟩
  simp only [parse, quotedText, fixed, found]
  rfl

end DataType

namespace AssertionFactory

theorem resolves_comparing {table : PhraseTable} (value : IsValueText (type.regex l))
    (known : ∀ language, ∀ e ∈ table language ++ PhraseTable.symbols,
      e.isTrim ∧ e.takesValue ∧ (Comparison.ofKey? e.key).isSome) :
    (comparing name type table).Resolves l BuildsOrRefusesValue := by
  obtain ⟨L, shared, closes⟩ := value
  refine resolves_of_entries rfl shared closes (by simp [PhraseTable.symbols])
    (fun e he => (known _ e he).1) fun e he t v? written => ?_
  obtain ⟨-, takes, key⟩ := known _ e he
  obtain ⟨c, comparison⟩ := Option.isSome_iff_exists.1 key
  obtain ⟨v, rfl⟩ := PhraseEntry.exists_value_of_phrased takes written
  change BuildsOrRefusesValue (buildComparison name type e.key (some v) l)
  simp only [buildComparison, comparison]
  split
  · exact .inl ⟨_, rfl⟩
  · exact .inr ⟨_, rfl⟩

/-- A check is found under its key if the reference is there that it may need. -/
theorem exists_textCheck (name : String) (reference : Option Text) {key : String}
    (known : (TextCheck.bare? key).isSome ∨
      reference.isSome ∧ (TextCheck.withReference? key).isSome) :
    ∃ c, textCheck name key reference = .ok c := by
  cases bare : TextCheck.bare? key with
  | some c => exact ⟨c, by simp [textCheck, bare]⟩
  | none =>
    rw [bare] at known
    obtain ⟨given, taking⟩ := known.resolve_left (by simp)
    obtain ⟨t, rfl⟩ := Option.isSome_iff_exists.1 given
    obtain ⟨check, found⟩ := Option.isSome_iff_exists.1 taking
    exact ⟨check t, by simp [textCheck, bare, found]⟩

theorem resolves_checkingTexts : (checkingTexts name .quotedText).Resolves l Builds := by
  refine resolves_of_entries rfl (DataType.isShared_quotedText l)
    ((DataType.closesInInk_betweenQuotes rfl).add (DataType.closesInInk_betweenQuotes rfl))
    (by cases l.phraseLanguage <;> simp [TextCheck.phrases])
    (fun e he => (TextCheck.known _ e he).1) fun e he t v? written => ?_
  change Builds (buildTextCheck name .quotedText e.key v? l)
  have known := (TextCheck.known _ e he).2
  rw [buildTextCheck]
  cases v? with
  | none =>
    obtain ⟨c, check⟩ := exists_textCheck name none
      (known.imp_right fun taking => by
        simpa using PhraseEntry.exists_value_of_phrased taking.1 written)
    exact ⟨c.assertion name, by simp [check, Except.map]⟩
  | some v =>
    obtain ⟨x, read⟩ := DataType.exists_parse_quotedText (l := l) written.value_mem
    obtain ⟨c, check⟩ := exists_textCheck name (some (referenceOf x))
      (known.imp_right fun taking => ⟨rfl, taking.2⟩)
    exact ⟨c.assertion name, by simp [read, check, Except.map]⟩

end AssertionFactory

/-- The standard factories make something of whatever their phrases take in a sentence, unless a value
cannot be read. The phrases of texts never fail. -/
theorem AssertionFactories.resolves_standard {factory : AssertionFactory}
    (found : standard.find name = .ok factory) (l : Locale) :
    factory.Resolves l AssertionFactory.BuildsOrRefusesValue ∧
      (factory.name = "text-assertion" → factory.Resolves l AssertionFactory.Builds) := by
  have comparing (name : String) (type : DataType) (table : PhraseTable)
      (mem : table ∈ [PhraseTable.numeric, PhraseTable.temporal]) (other : name ≠ "text-assertion")
      (value : IsValueText (type.regex l)) :
      (AssertionFactory.comparing name type table).Resolves l AssertionFactory.BuildsOrRefusesValue ∧
        ((AssertionFactory.comparing name type table).name = "text-assertion" →
          (AssertionFactory.comparing name type table).Resolves l AssertionFactory.Builds) :=
    ⟨AssertionFactory.resolves_comparing value (PhraseTable.known mem), fun same => absurd same other⟩
  have whole := NumberMarks.isValueText_regex l.groupSize_numberMarks false
  have decimal := NumberMarks.isValueText_regex l.groupSize_numberMarks true
  have temporal (name : String) (form : TemporalForm) := DataType.isValueText_temporal name form l
  have texts : (AssertionFactory.checkingTexts "text-assertion" .quotedText).Resolves l
      AssertionFactory.Builds := AssertionFactory.resolves_checkingTexts
  have each : ∀ factory ∈ [AssertionFactory.comparing "number-assertion" (.long "number") .numeric,
      .comparing "integer-assertion" .integer .numeric,
      .comparing "decimal-assertion" (.decimal "decimal") .numeric,
      .comparing "date-assertion" .date .temporal, .comparing "time-assertion" .time .temporal,
      .comparing "datetime-assertion" .dateTime .temporal,
      .checkingTexts "text-assertion" .quotedText],
      factory.Resolves l AssertionFactory.BuildsOrRefusesValue ∧
        (factory.name = "text-assertion" → factory.Resolves l AssertionFactory.Builds) := by
    simp only [List.forall_mem_cons]
    exact ⟨comparing _ _ _ (by simp) (by decide) whole, comparing _ _ _ (by simp) (by decide) whole,
      comparing _ _ _ (by simp) (by decide) decimal,
      comparing _ _ _ (by simp) (by decide) (temporal _ _),
      comparing _ _ _ (by simp) (by decide) (temporal _ _),
      comparing _ _ _ (by simp) (by decide) (temporal _ _),
      ⟨texts.mono fun _ => .inl, fun _ => texts⟩, by simp⟩
  obtain mem | found := Registry.mem_of_find_registerAll found
  · exact each factory mem
  · cases Registry.get?_of_find found

end StepMatch
