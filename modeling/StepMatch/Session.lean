import StepMatch.Locale.Preference
import StepMatch.Object.Inventory
import StepMatch.Object.Matcher

/-!
# Sessions

The state of someone at work with expressions: what is registered, the matchers that were compiled,
the default locale, and all that objects and matchers keep. Whatever is asked may change what is
kept, also when it fails.
-/

namespace StepMatch

/-- The state of a session. -/
structure Session where
  stock : Stock := .standard
  preference : LocalePreference := {}
  /-- The matchers by name, the latest first. -/
  matchers : List (String × HeldMatcher) := []
  kept : Kept := {}

namespace Session

variable {ε α : Type}

/-- Registers a data type. -/
def registerType (s : Session) (p : TypePlan) : Session :=
  { s with stock := s.stock.registerType p }

/-- Registers an assertion factory. -/
def registerFactory (s : Session) (p : FactoryPlan) : Session :=
  { s with stock := s.stock.registerFactory p }

/-- Asks objects for something. -/
def ask (s : Session) (x : Keeping ε α) : Except ε α × Session :=
  let (answer, kept) := x.runFrom s.kept
  (answer, { s with kept := kept })

/-- The matcher that was compiled last under a name. -/
def matcher? (s : Session) (name : String) : Option HeldMatcher := s.matchers.lookup name

/-- Holds a matcher under a name. -/
def hold (s : Session) (name : String) (m : HeldMatcher) : Session :=
  { s with matchers := (name, m) :: s.matchers.filter fun held => held.1 != name }

/-- The regex of a matcher in a locale. The matcher that keeps it is held under the name. -/
def program (s : Session) (name : String) (m : HeldMatcher) (l : Locale) :
    Except MatchFault Program × Session :=
  match s.ask (m.program l) with
  | (.ok (p, m'), s') => (.ok p, s'.hold name m')
  | (.error fault, s') => (.error fault, s')

/-- Compiles an expression and holds the matcher under a name. There must be a regex for it in the
default locale. -/
def compile (s : Session) (name : String) (expression : Text) :
    Except ExpressionFault HeldMatcher × Session :=
  match HeldMatcher.ofExpression s.stock.types s.stock.factories expression with
  | .error fault => (.error fault, s)
  | .ok m =>
    match s.ask (m.program s.preference.locale) with
    | (.ok (_, m'), s') => (.ok m', s'.hold name m')
    | (.error fault, s') => (.error (.unmatchable s.preference.locale fault), s')

/-- Matches a sentence in a locale. The regex that was built for it stays, whatever comes of the
match. -/
def matchIn (s : Session) (name : String) (m : HeldMatcher) (l : Locale) (sentence : Text) :
    Except MatchFault (Option Match) × Session :=
  match s.program name m l with
  | (.ok p, s') => s'.ask (m.matchWith p l sentence)
  | (.error fault, s') => (.error fault, s')

/-- Matches a sentence in the default locale. -/
def matchDefault (s : Session) (name : String) (m : HeldMatcher) (sentence : Text) :
    Except MatchFault (Option Match) × Session :=
  s.matchIn name m s.preference.locale sentence

/-- Chooses a default locale. -/
def setDefault (s : Session) (l : Locale) : Session :=
  { s with preference := s.preference.choose l }

/-- Takes the choice of a default locale back. -/
def clearDefault (s : Session) : Session := { s with preference := s.preference.clear }

/-- Sets or removes the tag in the environment. -/
def setEnvironment (s : Session) (t : Option Text) : Session :=
  { s with preference := s.preference.setEnvironment t }

end Session

/-- Something that is done in a session while its registries stay as they are. Matchers, data types
and factories are named; a name that stands for nothing changes nothing. -/
inductive Step where
  | compile (name : String) (expression : Text)
  | program (name : String) (l : Locale)
  | matchIn (name : String) (l : Locale) (sentence : Text)
  | matchDefault (name : String) (sentence : Text)
  | regex (type : String) (l : Locale)
  | hints (type : String) (l : Locale)
  | parse (type : String) (l : Locale) (t : Text)
  | phrases (factory : String) (l : Locale)
  | build (factory : String) (key : String) (value : Option Text) (l : Locale)
  | resolve (factory : String) (l : Locale) (t : Text)
  | inventory (l : Locale)
  | setDefault (l : Locale)
  | clearDefault
  | setEnvironment (t : Option Text)
deriving DecidableEq, Repr

namespace Session

/-- Asks the data type under a name. -/
def askType {ε α : Type} (s : Session) (type : String) (x : TypeObject → Keeping ε α) : Session :=
  match s.stock.types.find type with
  | .ok o => (s.ask (x o)).2
  | .error _ => s

/-- Asks the factory under a name. -/
def askFactory {ε α : Type} (s : Session) (factory : String) (x : FactoryObject → Keeping ε α) :
    Session :=
  match s.stock.factories.find factory with
  | .ok o => (s.ask (x o)).2
  | .error _ => s

/-- Does something with the matcher under a name. -/
def withMatcher (s : Session) (name : String) (f : HeldMatcher → Session) : Session :=
  match s.matcher? name with
  | some m => f m
  | none => s

/-- The session after a step. -/
def perform (s : Session) : Step → Session
  | .compile name expression => (s.compile name expression).2
  | .program name l => s.withMatcher name fun m => (s.program name m l).2
  | .matchIn name l sentence => s.withMatcher name fun m => (s.matchIn name m l sentence).2
  | .matchDefault name sentence => s.withMatcher name fun m => (s.matchDefault name m sentence).2
  | .regex type l => s.askType type fun o => (o.regex l : Keeping Empty Text)
  | .hints type l => s.askType type fun o => (o.hints l : Keeping Empty (List String))
  | .parse type l t => s.askType type fun o => o.parse l t
  | .phrases factory l => s.askFactory factory fun o => o.phrases l
  | .build factory key value l => s.askFactory factory fun o => o.build key value l
  | .resolve factory l t => s.askFactory factory fun o => o.resolve l t
  | .inventory l => (s.ask (s.stock.inventory l : Keeping Empty Inventory)).2
  | .setDefault l => s.setDefault l
  | .clearDefault => s.clearDefault
  | .setEnvironment t => s.setEnvironment t

/-- The session after steps in order. -/
def performAll (s : Session) (steps : List Step) : Session := steps.foldl perform s

end Session
end StepMatch
