import StepMatch.Object.Keeping
import StepMatch.Assertion.Standard

/-!
# Data types and factories as objects

An object has a number, under which it keeps what it builds. Registries hold objects, and so do
factories, whose data type may be one of a registry or one of their own.
-/

namespace StepMatch

/-- A data type as an object. -/
structure TypeObject where
  base : DataType
  /-- The number that forms are kept under; a type that is the same everywhere builds none. -/
  number? : Option Nat

instance : Named TypeObject := ⟨fun o => o.base.name⟩

namespace TypeObject

variable {ε : Type}

/-- The forms of the type in a locale. -/
def forms (o : TypeObject) (l : Locale) : Keeping ε LocalForms :=
  match o.number? with
  | none => return o.base.formsIn l
  | some n => Keeping.remember (·.forms n) (Kept.setForms n) l (return o.base.formsIn l)

/-- The regex of the type in a locale. -/
def regex (o : TypeObject) (l : Locale) : Keeping ε Text := return (← o.forms l).regex

/-- The formats that the type accepts in a locale. -/
def hints (o : TypeObject) (l : Locale) : Keeping ε (List String) := return (← o.forms l).hints

/-- The value that a text writes in a locale. -/
def parse (o : TypeObject) (l : Locale) (t : Text) : Keeping ReadFault Value := do
  match (← o.forms l).read t with
  | .ok v => return v
  | .error reason => throw ⟨o.base.name, l, t, ← o.hints l, reason⟩

end TypeObject

/-- What a factory makes: comparisons, in the phrases of a table, or checks of texts. -/
inductive FactoryForm where
  | comparing (table : PhraseTable)
  | checkingTexts

namespace FactoryForm

/-- The entries of the phrases in a locale. -/
def entries (l : Locale) : FactoryForm → List PhraseEntry
  | comparing table => table l.phraseLanguage ++ PhraseTable.symbols
  | checkingTexts => TextCheck.phrases l.phraseLanguage

/-- The factory of this form for a data type. -/
def factory (name : String) (type : DataType) : FactoryForm → AssertionFactory
  | comparing table => .comparing name type table
  | checkingTexts => .checkingTexts name type

end FactoryForm

/-- An assertion factory as an object. -/
structure FactoryObject where
  name : String
  type : TypeObject
  form : FactoryForm
  /-- The number that phrases are kept under. -/
  number : Nat

instance : Named FactoryObject := ⟨FactoryObject.name⟩

namespace FactoryObject

/-- The factory that the object is. -/
def base (o : FactoryObject) : AssertionFactory := o.form.factory o.name o.type.base

theorem name_base (o : FactoryObject) : Named.name o.base = Named.name o := by
  unfold base
  cases o.form <;> rfl

/-- The phrases of the factory in a locale. -/
def phrases (o : FactoryObject) (l : Locale) : Keeping AssertionFault PhraseSet :=
  Keeping.remember (·.phrases o.number) (Kept.setPhrases o.number) l do
    let regex ← o.type.regex l
    .ofResult (PhraseSet.ofEntries (o.form.entries l) regex)

/-- The assertion of a key, with the text of the value if the phrase has one. -/
def build (o : FactoryObject) (key : String) (value : Option Text) (l : Locale) :
    Keeping AssertionFault Assertion :=
  match o.form with
  | .comparing _ =>
    match Comparison.ofKey? key, value with
    | none, _ => throw (.unknownKey o.name key)
    | some _, none => throw (.missingValue o.name key)
    | some c, some t => do
      let expected ← (o.type.parse l t).mapFault .unreadable
      return c.assertion o.name expected
  | .checkingTexts => do
    let reference ← value.mapM fun t => (o.type.parse l t).mapFault .unreadable
    let c ← .ofResult
      (AssertionFactory.textCheck o.name key (reference.map AssertionFactory.referenceOf))
    return c.assertion o.name

/-- The assertion that a text phrases. -/
def resolve (o : FactoryObject) (l : Locale) (t : Text) : Keeping AssertionFault Assertion := do
  let phrases ← o.phrases l
  match phrases.resolve? t with
  | some (key, value) => o.build key value l
  | none => throw (.unresolved o.name l t phrases.templates)

end FactoryObject

/-- A data type that is to be made an object. -/
structure TypePlan where
  base : DataType
  /-- Whether anything is built for a locale. -/
  isLocal : Bool := true

/-- A factory that is to be made an object. -/
structure FactoryPlan where
  name : String
  type : TypePlan
  form : FactoryForm

namespace TypePlan

/-- The object, if it gets this number. -/
def object (p : TypePlan) (number : Nat) : TypeObject :=
  ⟨p.base, if p.isLocal then some number else none⟩

/-- The standard data types. -/
def standard : List TypePlan :=
  [⟨.word, false⟩, ⟨.identifier, false⟩, ⟨.quotedText, false⟩, ⟨.integer, true⟩,
   ⟨.long "number", true⟩, ⟨.long "long", true⟩, ⟨.decimal "decimal", true⟩, ⟨.date, true⟩,
   ⟨.time, true⟩, ⟨.dateTime, true⟩]

end TypePlan

/-- The standard factories. -/
def FactoryPlan.standard : List FactoryPlan :=
  [⟨"number-assertion", ⟨.long "number", true⟩, .comparing .numeric⟩,
   ⟨"integer-assertion", ⟨.integer, true⟩, .comparing .numeric⟩,
   ⟨"decimal-assertion", ⟨.decimal "decimal", true⟩, .comparing .numeric⟩,
   ⟨"date-assertion", ⟨.date, true⟩, .comparing .temporal⟩,
   ⟨"time-assertion", ⟨.time, true⟩, .comparing .temporal⟩,
   ⟨"datetime-assertion", ⟨.dateTime, true⟩, .comparing .temporal⟩,
   ⟨"text-assertion", ⟨.quotedText, false⟩, .checkingTexts⟩]

end StepMatch
