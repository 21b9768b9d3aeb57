import StepMatch.Assertion.Phrase
import StepMatch.Locale.Conventions

/-!
# Comparisons

Assertions that compare a value with a reference. Values that cannot be compared fulfil none of
them, not even that they differ.
-/

namespace StepMatch

/-- A relation between a value and a reference. -/
inductive Comparison where
  | equal
  | notEqual
  | greater
  | greaterOrEqual
  | less
  | lessOrEqual
deriving DecidableEq, Repr

namespace Comparison

/-- All comparisons. -/
def all : List Comparison := [.equal, .notEqual, .greater, .greaterOrEqual, .less, .lessOrEqual]

/-- The key of the phrases that ask for it. -/
def key : Comparison → String
  | .equal => "equal"
  | .notEqual => "not-equal"
  | .greater => "greater"
  | .greaterOrEqual => "greater-or-equal"
  | .less => "less"
  | .lessOrEqual => "less-or-equal"

/-- The comparison with a given key. -/
def ofKey? (key : String) : Option Comparison := all.find? fun c => c.key == key

/-- Whether it holds when the value stands in this order to the reference. -/
def holds : Comparison → Ordering → Bool
  | .equal, o => o.isEq
  | .notEqual, o => o.isNe
  | .greater, o => o.isGT
  | .greaterOrEqual, o => o.isGE
  | .less, o => o.isLT
  | .lessOrEqual, o => o.isLE

/-- What a value is expected to do. -/
def describe : Comparison → String
  | .equal => "be equal to"
  | .notEqual => "differ from"
  | .greater => "be greater than"
  | .greaterOrEqual => "be greater than or equal to"
  | .less => "be less than"
  | .lessOrEqual => "be less than or equal to"

/-- Whether the comparison of two values holds. -/
def test (c : Comparison) (expected v : Value) : Bool := (v.order? expected).any c.holds

/-- Why a value would fail the comparison. -/
def describeFailure (c : Comparison) (expected v : Value) : String :=
  match v.order? expected with
  | none => "cannot compare " ++ v.kind.name ++ " value " ++ v.display ++ " with "
      ++ expected.kind.name ++ " value " ++ expected.display
  | some _ => "expected " ++ v.display ++ " to " ++ c.describe ++ " " ++ expected.display

/-- The assertion that values stand in this relation to the reference. -/
def assertion (c : Comparison) (name : String) (expected : Value) : Assertion where
  name := name
  test := c.test expected
  describeFailure := c.describeFailure expected

end Comparison

/-- Phrases for each language. Where one phrase begins another, the longer one comes first. -/
abbrev PhraseTable := PhraseLanguage → List PhraseEntry

namespace PhraseTable

/-- The phrases of symbols, the same in every language. -/
def symbols : List PhraseEntry :=
  [.taking "greater-or-equal" ">=", .taking "less-or-equal" "<=", .taking "not-equal" "!=",
   .taking "greater" ">", .taking "less" "<", .taking "equal" "="]

/-- The phrases that compare numbers. -/
def numeric : PhraseTable
  | .english =>
    [.taking "greater-or-equal" "is greater than or equal to",
     .taking "less-or-equal" "is less than or equal to",
     .taking "not-equal" "is not equal to",
     .taking "greater" "is greater than",
     .taking "less" "is less than",
     .taking "equal" "is equal to",
     .taking "not-equal" "is not",
     .taking "equal" "is"]
  | .spanish =>
    [.taking "greater-or-equal" "es mayor o igual que",
     .taking "less-or-equal" "es menor o igual que",
     .taking "not-equal" "no es igual a",
     .taking "greater" "es mayor que",
     .taking "less" "es menor que",
     .taking "equal" "es igual a",
     .taking "not-equal" "no es",
     .taking "equal" "es"]

/-- The phrases that compare dates and times. -/
def temporal : PhraseTable
  | .english =>
    [.taking "greater-or-equal" "is on or after",
     .taking "less-or-equal" "is on or before",
     .taking "greater" "is after",
     .taking "less" "is before",
     .taking "not-equal" "is not",
     .taking "equal" "is"]
  | .spanish =>
    [.taking "greater-or-equal" "es igual o posterior a",
     .taking "less-or-equal" "es igual o anterior a",
     .taking "greater" "es posterior a",
     .taking "less" "es anterior a",
     .taking "not-equal" "no es",
     .taking "equal" "es"]

end PhraseTable

namespace AssertionFactory

/-- Builds a comparison with a reference that the data type reads. -/
def buildComparison (name : String) (type : DataType) (key : String) (value : Option Text)
    (l : Locale) : Except AssertionFault Assertion :=
  match Comparison.ofKey? key, value with
  | none, _ => .error (.unknownKey name key)
  | some _, none => .error (.missingValue name key)
  | some c, some t =>
    match type.parse l t with
    | .ok expected => .ok (c.assertion name expected)
    | .error fault => .error (.unreadable fault)

/-- Comparisons with values of a data type, in the phrases of a table and in symbols. -/
def comparing (name : String) (type : DataType) (table : PhraseTable) : AssertionFactory where
  name := name
  phrases l := PhraseSet.ofEntries (table l.phraseLanguage ++ PhraseTable.symbols) (type.regex l)
  build := buildComparison name type

end AssertionFactory
end StepMatch
