import StepMatch.Assertion.Standard

/-!
# Inventories

What is registered, as seen from one locale, for people and for other tools. The text form is
JSON without white space; factories whose phrases cannot be built are left out.
-/

namespace StepMatch

/-- A data type as seen from one locale. -/
structure DataTypeEntry where
  name : String
  kind : ValueKind
  regex : Text
  hints : List String
deriving DecidableEq, Repr

/-- An assertion factory as seen from one locale. -/
structure FactoryEntry where
  name : String
  phrases : List Text
deriving DecidableEq, Repr

/-- What is registered, as seen from one locale. -/
structure Inventory where
  locale : Locale
  dataTypes : List DataTypeEntry
  factories : List FactoryEntry
deriving DecidableEq, Repr

/-- A data type as seen from a locale. -/
def DataType.seenFrom (l : Locale) (d : DataType) : DataTypeEntry :=
  ⟨d.name, d.kind, d.regex l, d.hints l⟩

/-- A factory as seen from a locale, if its phrases can be built there. -/
def AssertionFactory.seenFrom? (l : Locale) (f : AssertionFactory) : Option FactoryEntry :=
  (f.phrases l).toOption.map fun phrases => ⟨f.name, phrases.templates⟩

/-! Text form -/

/-- The digit of a number below sixteen. -/
def hexDigit (n : Nat) : Char := Nat.digitChar n

/-- A character of a string in JSON. -/
def jsonChar (c : Char) : Text :=
  match c with
  | '\x22' => ['\\', '\x22']
  | '\\' => ['\\', '\\']
  | '\x08' => ['\\', 'b']
  | '\x0c' => ['\\', 'f']
  | '\n' => ['\\', 'n']
  | '\r' => ['\\', 'r']
  | '\t' => ['\\', 't']
  | c =>
    if c.toNat < 0x20 then
      ['\\', 'u', '0', '0', hexDigit (c.toNat / 16), hexDigit (c.toNat % 16)]
    else [c]

/-- A string in JSON. -/
def jsonString (t : Text) : Text :=
  Text.doubleQuote :: t.flatMap jsonChar ++ [Text.doubleQuote]

/-- An array in JSON. -/
def jsonArray (items : List Text) : Text := '[' :: Text.joinWith [','] items ++ [']']

/-- An object in JSON, its fields in order. -/
def jsonObject (fields : List (String × Text)) : Text :=
  let field (f : String × Text) : Text := jsonString f.1.toList ++ ':' :: f.2
  '{' :: Text.joinWith [','] (fields.map field) ++ ['}']

/-- A data type in JSON. -/
def DataTypeEntry.json (e : DataTypeEntry) : Text :=
  jsonObject
    [("name", jsonString e.name.toList), ("kind", jsonString e.kind.name.toList),
     ("regex", jsonString e.regex),
     ("hints", jsonArray (e.hints.map fun h => jsonString h.toList))]

/-- A factory in JSON. -/
def FactoryEntry.json (e : FactoryEntry) : Text :=
  jsonObject
    [("name", jsonString e.name.toList), ("phrases", jsonArray (e.phrases.map jsonString))]

namespace Inventory

/-- What is registered, as seen from a locale. -/
def of (types : DataTypes) (factories : AssertionFactories) (l : Locale) : Inventory :=
  ⟨l, types.toList.map (·.seenFrom l), factories.toList.filterMap (·.seenFrom? l)⟩

/-- An inventory in JSON. -/
def json (i : Inventory) : Text :=
  jsonObject
    [("locale", jsonString i.locale.tag.toList),
     ("data_types", jsonArray (i.dataTypes.map DataTypeEntry.json)),
     ("assertions", jsonArray (i.factories.map FactoryEntry.json))]

end Inventory
end StepMatch
