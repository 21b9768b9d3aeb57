import StepMatch.Matcher.Match
import StepMatch.Proofs.Matcher.Pieces

/-!
# What counts of a locale

Of a locale only the language counts, and for English whether it is that of the United States. Locales
that are alike in this have the same conventions, and so do all locales of languages without any of their
own. The standard data types and factories look at nothing but the conventions: in such locales they are
the same, but for the locale that their faults name.
-/

namespace StepMatch

/-! ### Locales -/

namespace Locale

/-- The locale follows the conventions of the United States: it is English without a region or with that
one, or of a language without conventions of its own. -/
def FollowsStates (l : Locale) : Prop :=
  if l.language = "en" then l.region = none ∨ l.region = some "US"
  else l.language ∉ ["es", "fr", "de", "it", "pt", "ja", "zh"]

/-- The locales have a language in common and, if that is English, both or neither follow the United
States; or both follow these. -/
def Alike (l l' : Locale) : Prop :=
  l.language = l'.language ∧ (l.language = "en" → (l.FollowsStates ↔ l'.FollowsStates)) ∨
    l.FollowsStates ∧ l'.FollowsStates

instance (l : Locale) : Decidable l.FollowsStates := by
  unfold FollowsStates
  infer_instance

instance (l l' : Locale) : Decidable (l.Alike l') := by
  unfold Alike
  infer_instance

/-- Numbers, dates, times, months and phrases are written alike. -/
structure SameConventions (l l' : Locale) : Prop where
  numberMarks : l'.numberMarks = l.numberMarks
  dateLayouts : l'.dateLayouts = l.dateLayouts
  timeLayouts : l'.timeLayouts = l.timeLayouts
  monthNames : l'.monthNames = l.monthNames
  phraseLanguage : l'.phraseLanguage = l.phraseLanguage

variable {l l' : Locale}

theorem SameConventions.symm (h : l.SameConventions l') : l'.SameConventions l :=
  ⟨h.numberMarks.symm, h.dateLayouts.symm, h.timeLayouts.symm, h.monthNames.symm, h.phraseLanguage.symm⟩

theorem SameConventions.trans {l'' : Locale} (h : l.SameConventions l') (h' : l'.SameConventions l'') :
    l.SameConventions l'' :=
  ⟨h'.numberMarks.trans h.numberMarks, h'.dateLayouts.trans h.dateLayouts,
    h'.timeLayouts.trans h.timeLayouts, h'.monthNames.trans h.monthNames,
    h'.phraseLanguage.trans h.phraseLanguage⟩

/-- The conventions come of the language and of whether they are American. -/
theorem sameConventions_of_language? (language : l'.language? = l.language?)
    (american : l'.isAmerican = l.isAmerican) : l.SameConventions l' where
  numberMarks := by rw [numberMarks, numberMarks, language]
  dateLayouts := by rw [dateLayouts, dateLayouts, american, language]
  timeLayouts := by rw [timeLayouts, timeLayouts, american]
  monthNames := by rw [monthNames, monthNames, language]
  phraseLanguage := by rw [phraseLanguage, phraseLanguage, language]

theorem language?_eq_english_iff : l.language? = some .english ↔ l.language = "en" := by
  rw [language?]
  unfold Language.ofCode?
  split <;> simp_all

theorem language?_eq_none_iff :
    l.language? = none ↔ l.language ∉ ["en", "es", "fr", "de", "it", "pt", "ja", "zh"] := by
  rw [language?]
  unfold Language.ofCode?
  split <;> simp_all

/-- What follows the United States is American, and has no other language with conventions. -/
theorem FollowsStates.language? (h : l.FollowsStates) :
    (l.language? = some .english ∨ l.language? = none) ∧ l.isAmerican = true := by
  rw [FollowsStates] at h
  split at h
  · rename_i english
    have language := language?_eq_english_iff.2 english
    refine ⟨.inl language, ?_⟩
    rw [isAmerican, language]
    obtain region | region := h <;> simp [region]
  · rename_i other
    have language : l.language? = none := by
      rw [language?_eq_none_iff, List.mem_cons, not_or]
      exact ⟨other, h⟩
    refine ⟨.inr language, ?_⟩
    rw [isAmerican, language]

theorem isAmerican_eq_false (english : l.language = "en") (h : ¬ l.FollowsStates) :
    l.isAmerican = false := by
  rw [FollowsStates, if_pos english, not_or] at h
  rw [isAmerican, language?_eq_english_iff.2 english]
  obtain ⟨some, other⟩ := h
  cases region : l.region with
  | none => exact absurd region some
  | some code =>
    have : code ≠ "US" := by
      rintro rfl
      exact other region
    simpa using this

/-- Locales that follow the United States do so in everything. -/
theorem FollowsStates.sameConventions (h : l.FollowsStates) : l.SameConventions .default := by
  obtain ⟨language | language, american⟩ := h.language?
  · exact sameConventions_of_language? language.symm american.symm
  · constructor
    · rw [numberMarks.eq_def l, language]
      rfl
    · rw [dateLayouts.eq_def l, american]
      rfl
    · rw [timeLayouts.eq_def l, american]
      rfl
    · rw [monthNames.eq_def l, language]
      rfl
    · rw [phraseLanguage.eq_def l, language]
      rfl

/-- Locales that are alike have the same conventions. -/
theorem Alike.sameConventions (h : l.Alike l') : l.SameConventions l' := by
  obtain ⟨same, states⟩ | ⟨own, other⟩ := h
  · have language : l'.language? = l.language? := by rw [language?, language?, same]
    refine sameConventions_of_language? language ?_
    by_cases english : l.language = "en"
    · by_cases follows : l.FollowsStates
      · rw [follows.language?.2, ((states english).1 follows).language?.2]
      · rw [isAmerican_eq_false english follows,
          isAmerican_eq_false (same ▸ english) (mt (states english).2 follows)]
    · rw [isAmerican, isAmerican, language]
      split
      · rename_i own
        exact absurd (language?_eq_english_iff.1 own) english
      · rfl
      · rfl
  · exact own.sameConventions.trans other.sameConventions.symm

end Locale

/-! ### Faults -/

/-- The fault with another locale. -/
def ReadFault.inLocale (l : Locale) (f : ReadFault) : ReadFault := { f with locale := l }

def AssertionFault.inLocale (l : Locale) : AssertionFault → AssertionFault
  | .unresolved factory _ text expected => .unresolved factory l text expected
  | .unreadable fault => .unreadable (fault.inLocale l)
  | fault => fault

def MatchFault.inLocale (l : Locale) : MatchFault → MatchFault
  | .argument binding fault => .argument binding (fault.inLocale l)
  | .assertion fault => .assertion (fault.inLocale l)
  | .regex _ => .regex l

open StepMatch.Locale (SameConventions)

variable {l l' : Locale}

/-! ### Data types -/

/-- The data type is the same in both locales, but for the locale that faults name. -/
structure DataType.SameIn (type : DataType) (l l' : Locale) : Prop where
  regex : type.regex l' = type.regex l
  hints : type.hints l' = type.hints l
  parse : ∀ t, type.parse l' t = (type.parse l t).mapError (.inLocale l')

namespace DataType

theorem sameIn_of_read {type : DataType} (regex : type.regex l' = type.regex l)
    (hints : type.hints l' = type.hints l) (read : type.read l' = type.read l) : type.SameIn l l' := by
  refine ⟨regex, hints, fun t => ?_⟩
  rw [parse, parse, hints, read]
  cases type.read l t <;> rfl

theorem sameIn_fixed (name : String) (kind : ValueKind) (regex : Text) (hints : List String)
    (convert : Text → Except String Value) : (fixed name kind regex hints convert).SameIn l l' :=
  sameIn_of_read rfl rfl rfl

theorem sameIn_number (same : l.SameConventions l') (name : String) (kind : ValueKind) (decimals : Bool)
    (convert : Text → Except String Value) : (number name kind decimals convert).SameIn l l' := by
  refine sameIn_of_read ?_ ?_ ?_ <;> simp only [number, same.numberMarks]

theorem sameIn_temporal (same : l.SameConventions l') (name : String) (form : TemporalForm) :
    (temporal name form).SameIn l l' := by
  have layouts : form.layouts l' = form.layouts l := by
    cases form <;> simp only [TemporalForm.layouts, same.dateLayouts, same.timeLayouts]
  refine sameIn_of_read ?_ ?_ ?_
  · simp only [temporal, TemporalForm.regex, layouts, same.monthNames]
  · simp only [temporal, TemporalForm.hints, layouts]
  · simp only [temporal, TemporalForm.read?, layouts, same.monthNames]

end DataType

/-- The standard data types look at nothing but the conventions. -/
theorem DataTypes.sameIn_standard (same : l.SameConventions l') {name : String} {type : DataType}
    (found : standard.find name = .ok type) : type.SameIn l l' := by
  have fixed := @DataType.sameIn_fixed l l'
  have number := DataType.sameIn_number same
  have temporal := DataType.sameIn_temporal same
  obtain mem | found := Registry.mem_of_find_registerAll found
  · simp only [List.mem_cons, List.not_mem_nil, or_false] at mem
    obtain rfl | rfl | rfl | rfl | rfl | rfl | rfl | rfl | rfl | rfl := mem
    exacts [fixed .., fixed .., fixed .., number .., number .., number .., number .., temporal ..,
      temporal .., temporal ..]
  · cases found

/-! ### Factories -/

/-- The factory is the same in both locales, but for the locale that faults name. Phrases that cannot be
made have faults without one. -/
structure AssertionFactory.SameIn (factory : AssertionFactory) (l l' : Locale) : Prop where
  phrases : factory.phrases l' = factory.phrases l
  placeless : ∀ fault, factory.phrases l = .error fault → fault.inLocale l' = fault
  resolve : ∀ t, factory.resolve l' t = (factory.resolve l t).mapError (.inLocale l')

theorem PhraseSet.inLocale_of_ofEntries {entries : List PhraseEntry} {value : Text}
    {fault : AssertionFault} (h : ofEntries entries value = .error fault) (l : Locale) :
    fault.inLocale l = fault := by
  rw [ofEntries, map_eq_error_iff] at h
  obtain ⟨-, e, -, -, -, h⟩ := error_of_mapM h
  rw [phrase] at h
  split at h <;> cases h
  rfl

namespace AssertionFactory

theorem sameIn_of_build {factory : AssertionFactory} (phrases : factory.phrases l' = factory.phrases l)
    (placeless : ∀ fault, factory.phrases l = .error fault → fault.inLocale l' = fault)
    (build : ∀ key value,
      factory.build key value l' = (factory.build key value l).mapError (.inLocale l')) :
    factory.SameIn l l' := by
  refine ⟨phrases, placeless, fun t => ?_⟩
  rw [resolve, resolve, phrases]
  cases made : factory.phrases l with
  | error fault => exact congrArg Except.error (placeless fault made).symm
  | ok set =>
    simp only [Except.bind]
    split
    · exact build _ _
    · rfl

theorem sameIn_comparing (same : l.SameConventions l') (name : String) {type : DataType}
    (own : type.SameIn l l') (table : PhraseTable) : (comparing name type table).SameIn l l' := by
  refine sameIn_of_build ?_ (fun fault h => PhraseSet.inLocale_of_ofEntries h l') fun key value => ?_
  · simp only [comparing, same.phraseLanguage, own.regex]
  · simp only [comparing, buildComparison]
    split
    · rfl
    · rfl
    · rw [own.parse]
      cases type.parse l _ <;> rfl

theorem sameIn_checkingTexts (same : l.SameConventions l') (name : String) {type : DataType}
    (own : type.SameIn l l') : (checkingTexts name type).SameIn l l' := by
  have check : ∀ key reference, textCheck name key reference =
      (textCheck name key reference).mapError (.inLocale l') := by
    intro key reference
    unfold textCheck
    split <;> rfl
  refine sameIn_of_build ?_ (fun fault h => PhraseSet.inLocale_of_ofEntries h l') fun key value => ?_
  · simp only [checkingTexts, same.phraseLanguage, own.regex]
  · simp only [checkingTexts, buildTextCheck]
    cases value with
    | none => exact mapError_map _ (check key none)
    | some t =>
      simp only [Option.map_some, own.parse]
      cases type.parse l t with
      | error fault => rfl
      | ok v => exact mapError_map _ (check key _)

end AssertionFactory

/-- The standard factories look at nothing but the conventions. -/
theorem AssertionFactories.sameIn_standard (same : l.SameConventions l') {name : String}
    {factory : AssertionFactory} (found : standard.find name = .ok factory) : factory.SameIn l l' := by
  have number := DataType.sameIn_number same
  have temporal := DataType.sameIn_temporal same
  have comparing (name : String) {type : DataType} := @AssertionFactory.sameIn_comparing l l' same name type
  obtain mem | found := Registry.mem_of_find_registerAll found
  · simp only [List.mem_cons, List.not_mem_nil, or_false] at mem
    obtain rfl | rfl | rfl | rfl | rfl | rfl | rfl := mem
    exacts [comparing _ (number ..) _, comparing _ (number ..) _, comparing _ (number ..) _,
      comparing _ (temporal ..) _, comparing _ (temporal ..) _, comparing _ (temporal ..) _,
      AssertionFactory.sameIn_checkingTexts same _ (DataType.sameIn_fixed ..)]
  · cases found

end StepMatch
