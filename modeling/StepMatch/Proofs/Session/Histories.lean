import StepMatch.Proofs.Object.Faithful
import StepMatch.Session

/-!
# The history of a session does not show

What is kept by objects and matchers depends on all that was asked before: which locales, in which
order, under which defaults, with what success. The invariant is that each thing kept is what would
be built anew (`Session.IsSound`). Every step preserves it, so after any steps a matcher answers as
one that was just made from its expression, and the default locale is the one that was set last.
-/

namespace StepMatch

open Keeping

/-- The matcher is sound, it comes from its expression, and some sentences can be matched. -/
structure HeldMatcher.IsCompiled (s : Stock) (m : HeldMatcher) : Prop extends m.IsSound s where
  bound : Matcher.ofExpression s.baseTypes s.baseFactories m.expression = .ok m.base
  usable : ∃ l p, m.base.program l = .ok p

namespace Session

variable {ε α : Type} {s : Session}

/-- Everything kept is what would be built anew. -/
structure IsSound (s : Session) : Prop where
  kept : s.kept.Agrees s.stock
  matchers : ∀ name m, s.matcher? name = some m → m.IsCompiled s.stock

/-- Nothing is kept yet, no expression was compiled, and no default locale was chosen. -/
structure IsNew (s : Session) : Prop where
  kept : s.kept = {}
  matchers : s.matchers = []
  chosen : s.preference.chosen = none

theorem IsNew.isSound (h : s.IsNew) : s.IsSound where
  kept := h.kept ▸ Kept.agrees_empty s.stock
  matchers name m found := by
    rw [matcher?, h.matchers] at found
    cases found

theorem matcher?_hold (s : Session) (name other : String) (m : HeldMatcher) :
    (s.hold name m).matcher? other = if other = name then some m else s.matcher? other := by
  simp only [matcher?, hold, List.lookup_cons]
  by_cases same : other = name
  · simp [same]
  · simp only [beq_eq_false_iff_ne.2 same, same, if_false]
    induction s.matchers with
    | nil => rfl
    | cons held matchers ih =>
      obtain ⟨key, held⟩ := held
      by_cases dropped : key = name
      · have differ : (other == key) = false := beq_eq_false_iff_ne.2 (dropped ▸ same)
        simp only [dropped, bne_self_eq_false, Bool.false_eq_true, not_false_eq_true,
          List.filter_cons_of_neg, ih, List.lookup_cons]
        rw [dropped] at differ
        rw [differ]
      · simp only [bne_iff_ne, ne_eq, dropped, not_false_eq_true, List.filter_cons_of_pos,
          List.lookup_cons, ih]

theorem IsSound.withKept (sound : s.IsSound) {kept : Kept} (agrees : kept.Agrees s.stock) :
    IsSound { s with kept := kept } :=
  ⟨agrees, sound.matchers⟩

/-- A question has its answer, and changes only what is kept. -/
theorem exists_ask_eq (agrees : s.kept.Agrees s.stock) {x : Keeping ε α} {r : Except ε α}
    (gives : Gives s.stock x r) :
    ∃ kept : Kept, kept.Agrees s.stock ∧ s.ask x = (r, { s with kept := kept }) := by
  obtain ⟨given, agrees⟩ := gives s.kept agrees
  exact ⟨_, agrees, by rw [← given]; rfl⟩

theorem IsSound.hold (sound : s.IsSound) (name : String) {m : HeldMatcher}
    (compiled : m.IsCompiled s.stock) : (s.hold name m).IsSound where
  kept := sound.kept
  matchers other m' found := by
    rw [matcher?_hold] at found
    split at found
    · rw [← Option.some.inj found]
      exact compiled
    · exact sound.matchers other m' found

end Session

theorem HeldMatcher.IsCompiled.keep {s : Stock} {m : HeldMatcher} (h : m.IsCompiled s)
    {l : Locale} {p : Program} (right : m.base.program l = .ok p) : (m.keep l p).IsCompiled s where
  toIsSound := h.toIsSound.keep right
  bound := h.bound
  usable := h.usable

namespace Session

variable {ε α : Type} {s : Session} {m : HeldMatcher}

/-! ### What one step does -/

/-- A regex is the one that would be built anew, and the matcher that keeps it is held. -/
theorem exists_program_eq (agrees : s.kept.Agrees s.stock) (fine : m.IsSound s.stock)
    (name : String) (l : Locale) :
    ∃ kept : Kept, kept.Agrees s.stock ∧ s.program name m l = match m.base.program l with
      | .ok p => (.ok p, hold { s with kept := kept } name (m.keep l p))
      | .error fault => (.error fault, { s with kept := kept }) := by
  obtain ⟨kept, agrees, asked⟩ := exists_ask_eq agrees (HeldMatcher.gives_program fine l)
  refine ⟨kept, agrees, ?_⟩
  rw [program, asked]
  cases m.base.program l <;> rfl

theorem IsSound.program (sound : s.IsSound) (compiled : m.IsCompiled s.stock) (name : String)
    (l : Locale) : (s.program name m l).2.IsSound := by
  obtain ⟨kept, agrees, made⟩ := exists_program_eq sound.kept compiled.toIsSound name l
  rw [made]
  cases right : m.base.program l with
  | error fault => exact sound.withKept agrees
  | ok p => exact (sound.withKept agrees).hold name (compiled.keep right)

/-- A matcher answers as one that keeps nothing. -/
theorem matchIn_fst (agrees : s.kept.Agrees s.stock) (fine : m.IsSound s.stock) (name : String)
    (l : Locale) (sentence : Text) :
    (s.matchIn name m l sentence).1 = m.base.matchIn l sentence := by
  obtain ⟨kept, agrees', made⟩ := exists_program_eq agrees fine name l
  rw [matchIn, made, Matcher.matchIn]
  cases m.base.program l with
  | error fault => rfl
  | ok p =>
    obtain ⟨_, _, asked⟩ := exists_ask_eq
      (s := hold { s with kept := kept } name (m.keep l p)) agrees'
      (HeldMatcher.gives_matchWith fine p l sentence)
    exact congrArg Prod.fst asked

theorem IsSound.matchIn (sound : s.IsSound) (compiled : m.IsCompiled s.stock) (name : String)
    (l : Locale) (sentence : Text) : (s.matchIn name m l sentence).2.IsSound := by
  obtain ⟨kept, agrees, made⟩ := exists_program_eq sound.kept compiled.toIsSound name l
  rw [Session.matchIn, made]
  cases right : m.base.program l with
  | error fault => exact sound.withKept agrees
  | ok p =>
    have gives := HeldMatcher.gives_matchWith compiled.toIsSound p l sentence
    have holding := (sound.withKept agrees).hold name (compiled.keep right)
    obtain ⟨kept', agrees', asked⟩ := exists_ask_eq holding.kept gives
    simp only [asked]
    exact holding.withKept agrees'

/-- The registries and what decides the default locale are as before. -/
structure SameSetting (s s' : Session) : Prop where
  stock : s'.stock = s.stock
  preference : s'.preference = s.preference

theorem SameSetting.refl (s : Session) : SameSetting s s := ⟨rfl, rfl⟩

theorem sameSetting_ask (s : Session) (x : Keeping ε α) : SameSetting s (s.ask x).2 := ⟨rfl, rfl⟩

theorem sameSetting_program (s : Session) (name : String) (m : HeldMatcher) (l : Locale) :
    SameSetting s (s.program name m l).2 := by
  have asked := sameSetting_ask s (m.program l)
  unfold program
  rcases h : s.ask (m.program l) with ⟨fault | ⟨p, m'⟩, s'⟩ <;>
    · rw [h] at asked
      exact ⟨asked.stock, asked.preference⟩

theorem sameSetting_matchIn (s : Session) (name : String) (m : HeldMatcher) (l : Locale)
    (sentence : Text) : SameSetting s (s.matchIn name m l sentence).2 := by
  have made := sameSetting_program s name m l
  unfold Session.matchIn
  rcases h : s.program name m l with ⟨fault | p, s'⟩ <;>
    · rw [h] at made
      exact ⟨made.stock, made.preference⟩

theorem sameSetting_compile (s : Session) (name : String) (expression : Text) :
    SameSetting s (s.compile name expression).2 := by
  unfold compile
  split
  · exact SameSetting.refl s
  · rename_i m _
    have asked := sameSetting_ask s (m.program s.preference.locale)
    rcases h : s.ask (m.program s.preference.locale) with ⟨fault | ⟨p, m'⟩, s'⟩ <;>
      · rw [h] at asked
        exact ⟨asked.stock, asked.preference⟩

/-- Compiling an expression succeeds or fails as it does where nothing is kept. -/
theorem compile_fst (sound : s.IsSound) (name : String) (expression : Text) :
    (s.compile name expression).1.map HeldMatcher.base
      = Matcher.compile s.stock.baseTypes s.stock.baseFactories s.preference.locale
        expression := by
  have bound := HeldMatcher.ofExpression_base s.stock expression
  unfold compile Matcher.compile
  rw [← bound]
  cases made : HeldMatcher.ofExpression s.stock.types s.stock.factories expression with
  | error fault => rfl
  | ok m =>
    have fine := HeldMatcher.isSound_of_ofExpression made
    obtain ⟨_, _, asked⟩ := exists_ask_eq sound.kept
      (HeldMatcher.gives_program fine s.preference.locale)
    simp only [asked, Except.map, Except.bind]
    cases m.base.program s.preference.locale <;> rfl

/-- What is compiled comes from its expression, and is held. -/
theorem IsSound.compile (sound : s.IsSound) (name : String) (expression : Text) :
    (s.compile name expression).2.IsSound ∧ ∀ m, (s.compile name expression).1 = .ok m →
      m.IsCompiled s.stock ∧ m.expression = expression := by
  have bound := HeldMatcher.ofExpression_base s.stock expression
  unfold Session.compile
  cases made : HeldMatcher.ofExpression s.stock.types s.stock.factories expression with
  | error fault => exact ⟨sound, fun m h => by cases h⟩
  | ok m =>
    rw [made] at bound
    have fine := HeldMatcher.isSound_of_ofExpression made
    have same := HeldMatcher.expression_of_ofExpression made
    obtain ⟨kept, agrees, asked⟩ := exists_ask_eq sound.kept
      (HeldMatcher.gives_program fine s.preference.locale)
    simp only [asked, Except.map]
    cases right : m.base.program s.preference.locale with
    | error fault => exact ⟨sound.withKept agrees, fun m h => by cases h⟩
    | ok p =>
      have compiled : m.IsCompiled s.stock := ⟨fine, same ▸ bound.symm, _, p, right⟩
      have kept : (m.keep s.preference.locale p).IsCompiled s.stock := compiled.keep right
      refine ⟨(sound.withKept agrees).hold name kept, fun m' h => ?_⟩
      cases h
      exact ⟨kept, same⟩

/-! ### Any step -/

theorem IsSound.askType (sound : s.IsSound) (type : String) {x : TypeObject → Keeping ε α}
    {r : TypeObject → Except ε α} (gives : ∀ o ∈ s.stock.allTypes, Gives s.stock (x o) (r o)) :
    (s.askType type x).IsSound := by
  unfold Session.askType
  split
  · rename_i o found
    have known := Stock.mem_allTypes (Registry.mem_of_find found)
    obtain ⟨kept, agrees, asked⟩ := exists_ask_eq sound.kept (gives o known)
    rw [asked]
    exact sound.withKept agrees
  · exact sound

theorem IsSound.askFactory (sound : s.IsSound) (factory : String)
    {x : FactoryObject → Keeping ε α} {r : FactoryObject → Except ε α}
    (gives : ∀ o ∈ s.stock.factories.toList, Gives s.stock (x o) (r o)) :
    (s.askFactory factory x).IsSound := by
  unfold Session.askFactory
  split
  · rename_i o found
    obtain ⟨kept, agrees, asked⟩ := exists_ask_eq sound.kept (gives o (Registry.mem_of_find found))
    rw [asked]
    exact sound.withKept agrees
  · exact sound

theorem IsSound.withMatcher (sound : s.IsSound) (name : String) {f : HeldMatcher → Session}
    (each : ∀ m, m.IsCompiled s.stock → (f m).IsSound) : (s.withMatcher name f).IsSound := by
  unfold Session.withMatcher
  split
  · rename_i m found
    exact each m (sound.matchers name m found)
  · exact sound

/-- A step leaves only what would be built anew. -/
theorem IsSound.perform (sound : s.IsSound) (step : Step) : (s.perform step).IsSound := by
  cases step with
  | compile name expression => exact (sound.compile name expression).1
  | program name l => exact sound.withMatcher name fun m compiled => sound.program compiled name l
  | matchIn name l sentence =>
    exact sound.withMatcher name fun m compiled => sound.matchIn compiled name l sentence
  | matchDefault name sentence =>
    exact sound.withMatcher name fun m compiled =>
      sound.matchIn compiled name s.preference.locale sentence
  | regex type l => exact sound.askType type fun o known => TypeObject.gives_regex known l
  | hints type l => exact sound.askType type fun o known => TypeObject.gives_hints known l
  | parse type l t => exact sound.askType type fun o known => TypeObject.gives_parse known l t
  | phrases factory l =>
    exact sound.askFactory factory fun o known => FactoryObject.gives_phrases known l
  | build factory key value l =>
    exact sound.askFactory factory fun o known => FactoryObject.gives_build known key value l
  | resolve factory l t =>
    exact sound.askFactory factory fun o known => FactoryObject.gives_resolve known l t
  | inventory l =>
    obtain ⟨kept, agrees, asked⟩ := exists_ask_eq (ε := Empty) sound.kept (s.stock.gives_inventory l)
    simp only [Session.perform, asked]
    exact sound.withKept agrees
  | setDefault l => exact ⟨sound.kept, sound.matchers⟩
  | clearDefault => exact ⟨sound.kept, sound.matchers⟩
  | setEnvironment t => exact ⟨sound.kept, sound.matchers⟩

/-- Any steps leave only what would be built anew. -/
theorem IsSound.performAll (sound : s.IsSound) (steps : List Step) :
    (s.performAll steps).IsSound := by
  induction steps generalizing s with
  | nil => exact sound
  | cons step steps ih => exact ih (sound.perform step)

end Session

/-! ### The default locale -/

namespace Step

/-- The choice of a default locale that the step makes: a locale, or none any more. -/
def choice? : Step → Option (Option Locale)
  | .setDefault l => some (some l)
  | .clearDefault => some none
  | _ => none

/-- What the step puts in the environment: a tag, or none any more. -/
def environment? : Step → Option (Option Text)
  | .setEnvironment t => some t
  | _ => none

/-- The locale that was chosen last, unless the choice was taken back since. -/
def lastChosen (steps : List Step) : Option Locale := (steps.reverse.findSome? choice?).join

/-- The tag in the environment after the steps. -/
def lastEnvironment (start : Option Text) (steps : List Step) : Option Text :=
  (steps.reverse.findSome? environment?).getD start

end Step

namespace Session

variable {ε α : Type} {s : Session}

theorem SameSetting.withMatcher {f : HeldMatcher → Session} (name : String)
    (each : ∀ m, SameSetting s (f m)) : SameSetting s (s.withMatcher name f) := by
  unfold Session.withMatcher
  split
  · exact each _
  · exact SameSetting.refl s

theorem sameSetting_askType (s : Session) (type : String) (x : TypeObject → Keeping ε α) :
    SameSetting s (s.askType type x) := by
  unfold Session.askType
  split
  · exact sameSetting_ask s _
  · exact SameSetting.refl s

theorem sameSetting_askFactory (s : Session) (factory : String)
    (x : FactoryObject → Keeping ε α) : SameSetting s (s.askFactory factory x) := by
  unfold Session.askFactory
  split
  · exact sameSetting_ask s _
  · exact SameSetting.refl s

/-- A step leaves the registries as they are, and decides the default locale only where it is one
of those that do. -/
theorem perform_setting (s : Session) (step : Step) :
    (s.perform step).stock = s.stock ∧ (s.perform step).preference =
      { chosen := step.choice?.getD s.preference.chosen
        environment := step.environment?.getD s.preference.environment } := by
  have same {s' : Session} (h : SameSetting s s') :
      s'.stock = s.stock ∧ s'.preference = ⟨s.preference.chosen, s.preference.environment⟩ :=
    ⟨h.stock, h.preference⟩
  cases step with
  | compile name expression => exact same (sameSetting_compile s name expression)
  | program name l => exact same (.withMatcher name fun m => sameSetting_program s name m l)
  | matchIn name l sentence =>
    exact same (.withMatcher name fun m => sameSetting_matchIn s name m l sentence)
  | matchDefault name sentence =>
    exact same (.withMatcher name fun m => sameSetting_matchIn s name m _ sentence)
  | regex type l => exact same (sameSetting_askType s type _)
  | hints type l => exact same (sameSetting_askType s type _)
  | parse type l t => exact same (sameSetting_askType s type _)
  | phrases factory l => exact same (sameSetting_askFactory s factory _)
  | build factory key value l => exact same (sameSetting_askFactory s factory _)
  | resolve factory l t => exact same (sameSetting_askFactory s factory _)
  | inventory l => exact same (sameSetting_ask s _)
  | setDefault l => exact ⟨rfl, rfl⟩
  | clearDefault => exact ⟨rfl, rfl⟩
  | setEnvironment t => exact ⟨rfl, rfl⟩

/-- The default locale was chosen last or is that of the environment; the registries stay. -/
theorem performAll_setting (s : Session) (steps : List Step) :
    (s.performAll steps).stock = s.stock ∧ (s.performAll steps).preference =
      { chosen := (steps.reverse.findSome? Step.choice?).getD s.preference.chosen
        environment := Step.lastEnvironment s.preference.environment steps } := by
  induction steps using List.reverseRecOn with
  | nil => exact ⟨rfl, rfl⟩
  | append_singleton steps step ih =>
    have last : s.performAll (steps ++ [step]) = (s.performAll steps).perform step := by
      simp [performAll]
    obtain ⟨stock, preference⟩ := perform_setting (s.performAll steps) step
    rw [last, stock, preference, ih.1, ih.2]
    refine ⟨rfl, ?_⟩
    simp only [Step.lastEnvironment, List.reverse_append, List.reverse_cons, List.reverse_nil,
      List.nil_append, List.cons_append, List.findSome?_cons]
    cases step.choice? <;> cases step.environment? <;> rfl

/-- In a session that was new, the default locale after any steps is the one that was chosen last
and not taken back; else it is that of the environment, or American English. -/
theorem locale_performAll (new : s.IsNew) (steps : List Step) :
    (s.performAll steps).preference.locale = (Step.lastChosen steps).getD
      (LocalePreference.locale
        { environment := Step.lastEnvironment s.preference.environment steps }) := by
  rw [(performAll_setting s steps).2, new.chosen, Step.lastChosen]
  rcases steps.reverse.findSome? Step.choice? with _ | _ | l <;> rfl

/-! ### Fresh matchers -/

/-- What a matcher for the expression answers that is made now and keeps nothing. -/
def firstAnswer (s : Session) (expression : Text) (l : Locale) (sentence : Text) :
    Except ExpressionFault (Except MatchFault (Option Match)) :=
  (HeldMatcher.ofExpression s.stock.types s.stock.factories expression).map fun m =>
    (s.matchIn "" m l sentence).1

/-- The first answer is that of the matcher where nothing is ever kept. -/
theorem firstAnswer_eq (agrees : s.kept.Agrees s.stock) (expression : Text) (l : Locale)
    (sentence : Text) : s.firstAnswer expression l sentence =
      (Matcher.ofExpression s.stock.baseTypes s.stock.baseFactories expression).map
        fun m => m.matchIn l sentence := by
  rw [firstAnswer, ← HeldMatcher.ofExpression_base]
  cases made : HeldMatcher.ofExpression s.stock.types s.stock.factories expression with
  | error fault => rfl
  | ok m =>
    have fine := HeldMatcher.isSound_of_ofExpression made
    exact congrArg Except.ok (matchIn_fst agrees fine "" l sentence)

/-- Whatever was done in a session before, each of its matchers answers as a fresh one for its
expression in another session with equal registries, in any locale: as one that keeps nothing, and
as one that was compiled under any default locale for which that succeeds, which there is. In the
default locale it answers as in the one that was chosen last and not taken back, else that of the
environment or American English. -/
theorem answers_as_fresh {s fresh : Session} (new : s.IsNew) (new' : fresh.IsNew)
    (types : fresh.stock.baseTypes = s.stock.baseTypes)
    (factories : fresh.stock.baseFactories = s.stock.baseFactories) (steps : List Step)
    {name : String} {m : HeldMatcher} (held : (s.performAll steps).matcher? name = some m) :
    (∀ l sentence, fresh.firstAnswer m.expression l sentence
        = .ok ((s.performAll steps).matchIn name m l sentence).1)
      ∧ (∀ l₀ m', ((fresh.setDefault l₀).compile name m.expression).1 = .ok m' →
          ∀ l sentence, (((fresh.setDefault l₀).compile name m.expression).2.matchIn name m' l
            sentence).1 = ((s.performAll steps).matchIn name m l sentence).1)
      ∧ (∃ l₀ m', ((fresh.setDefault l₀).compile name m.expression).1 = .ok m')
      ∧ ∀ sentence, ((s.performAll steps).matchDefault name m sentence).1
        = ((s.performAll steps).matchIn name m ((Step.lastChosen steps).getD
            (LocalePreference.locale
              { environment := Step.lastEnvironment s.preference.environment steps }))
            sentence).1 := by
  have sound := new.isSound.performAll steps
  have compiled := sound.matchers name m held
  have answer (l : Locale) (sentence : Text) :
      ((s.performAll steps).matchIn name m l sentence).1 = m.base.matchIn l sentence :=
    matchIn_fst sound.kept compiled.toIsSound name l sentence
  have bound := compiled.bound
  rw [(performAll_setting s steps).1, ← types, ← factories] at bound
  have fromDefault (l₀ : Locale) : (fresh.setDefault l₀).IsSound :=
    ⟨new'.isSound.kept, new'.isSound.matchers⟩
  have compiles (l₀ : Locale) : ((fresh.setDefault l₀).compile name m.expression).1.map
      HeldMatcher.base = match m.base.program l₀ with
        | .ok _ => .ok m.base
        | .error fault => .error (.unmatchable l₀ fault) := by
    have made := compile_fst (fromDefault l₀) name m.expression
    simp only [setDefault, Matcher.compile, bound, Except.bind] at made
    exact made
  refine ⟨fun l sentence => ?_, fun l₀ m' made l sentence => ?_, ?_, fun sentence => ?_⟩
  · rw [firstAnswer_eq new'.isSound.kept, bound, answer]
    rfl
  · have base : m'.base = m.base := by
      have compiles := compiles l₀
      rw [made] at compiles
      split at compiles
      · exact Except.ok.inj compiles
      · cases compiles
    obtain ⟨after, comes⟩ := (fromDefault l₀).compile name m.expression
    have stock := (sameSetting_compile (fresh.setDefault l₀) name m.expression).stock
    have fine := (comes m' made).1.toIsSound
    rw [← stock] at fine
    rw [matchIn_fst after.kept fine, base, answer]
  · obtain ⟨l₀, p, right⟩ := compiled.usable
    have compiles := compiles l₀
    rw [right] at compiles
    rcases made : ((fresh.setDefault l₀).compile name m.expression).1 with fault | m'
    · rw [made] at compiles
      cases compiles
    · exact ⟨l₀, m', made⟩
  · rw [matchDefault, locale_performAll new steps]

/-- Compiled under a Spanish default, and used in German and with a number out of range since, a
matcher for a number of apples answers as a fresh one, and is back at American English. -/
theorem answers_as_fresh_of_apples :
    let spanish : Locale := { language := "es", region := some "ES" }
    let german : Locale := { language := "de" }
    let s : Session := ({} : Session).performAll
      [.setDefault spanish, .compile "apples" "\x7bn:integer\x7d apples".toList,
        .matchIn "apples" german "1.000 apples".toList,
        .matchDefault "apples" "99999999999 apples".toList, .clearDefault]
    ∃ m, s.matcher? "apples" = some m ∧ m.programs.size = 2
      ∧ (∀ l sentence, ({} : Session).firstAnswer m.expression l sentence
          = .ok (s.matchIn "apples" m l sentence).1)
      ∧ ∀ sentence, (s.matchDefault "apples" m sentence).1
          = (s.matchIn "apples" m .default sentence).1 := by
  intro spanish german s
  have size : (s.matcher? "apples").map (·.programs.size) = some 2 := by decide +kernel
  obtain ⟨m, held, two⟩ := Option.map_eq_some_iff.1 size
  have new : ({} : Session).IsNew := ⟨rfl, rfl, rfl⟩
  obtain ⟨first, _, _, default⟩ := answers_as_fresh new new rfl rfl _ held
  exact ⟨m, held, two, first, default⟩

end Session
end StepMatch
