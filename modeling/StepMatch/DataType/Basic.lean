import StepMatch.Registry
import StepMatch.Locale.Tag
import StepMatch.Value.Basic

/-!
# Data types

A data type knows, for each locale, what its values look like in a sentence and how to read them.
Its regex recognises a value, its hints tell people what is accepted, and its reader makes the
value or says why there is none.
-/

namespace StepMatch

/-- A kind of value that can be asked for by name. -/
structure DataType where
  name : String
  kind : ValueKind
  /-- Recognises a value inside a sentence. -/
  regex : Locale → Text
  /-- The formats that are accepted. -/
  hints : Locale → List String
  /-- The value that a text writes, or the reason why it writes none. -/
  read : Locale → Text → Except String Value

instance : Named DataType := ⟨DataType.name⟩

/-- A text that a data type cannot read. -/
structure ReadFault where
  typeName : String
  locale : Locale
  /-- The text as it was given. -/
  text : Text
  /-- The formats that are accepted instead. -/
  hints : List String
  reason : String
deriving DecidableEq, Repr

/-- The wording of the fault. -/
def ReadFault.message (f : ReadFault) : String :=
  "cannot parse `" ++ f.text.asString ++ "` as " ++ f.typeName ++ " in locale " ++ f.locale.tag
    ++ ": " ++ f.reason ++ " (expected " ++ " or ".intercalate f.hints ++ ")"

namespace DataType

/-- The value that a text writes in a locale. -/
def parse (d : DataType) (l : Locale) (t : Text) : Except ReadFault Value :=
  (d.read l t).mapError fun reason => ⟨d.name, l, t, d.hints l, reason⟩

end DataType

/-- The wording of a look-up of a data type that is not registered. -/
def UnknownName.dataTypeMessage (u : UnknownName) : String :=
  "unknown data type `" ++ u.name ++ "`; known types: " ++ ", ".intercalate u.known

end StepMatch
