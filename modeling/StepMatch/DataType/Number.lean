import StepMatch.DataType.Basic
import StepMatch.Locale.Conventions
import StepMatch.Regex.Writing
import StepMatch.Regex.Reading
import StepMatch.Regex.Search

/-!
# Numbers in sentences

A number is an optional sign and digits, either in full groups with the mark of the locale between
them or without any mark, and perhaps the decimal mark of the locale with more digits. The marks
are taken out or replaced before the digits are read.
-/

namespace StepMatch

namespace NumberMarks

/-- The regex of whole numbers. -/
def wholeRegex (m : NumberMarks) : Text :=
  let groups := Regex.digitsUpTo m.groupSize
    ++ Regex.grouped (Regex.escapeChar m.grouping ++ Regex.digits m.groupSize) ++ ['+']
  "[+-]?".toList ++ Regex.grouped (Regex.alternatives [groups, "\\d+".toList])

/-- The regex of numbers, with a fraction where `decimals` allows one. -/
def regex (m : NumberMarks) (decimals : Bool) : Text :=
  if decimals then
    m.wholeRegex ++ Regex.grouped (Regex.escapeChar m.decimal ++ "\\d+".toList) ++ ['?']
  else m.wholeRegex

/-- How numbers are shown to people. -/
def hint (m : NumberMarks) (decimals : Bool) : String :=
  let whole := "#" ++ String.singleton m.grouping ++ "##0"
  if decimals then whole ++ String.singleton m.decimal ++ "###" else whole

/-- The number without its grouping marks, and with a point for its decimal mark. -/
def normalise (m : NumberMarks) (t : Text) : Text :=
  (t.filter (· != m.grouping)).map fun c => if c == m.decimal then '.' else c

/-- Whether a text is a number as a whole. -/
def accepts (m : NumberMarks) (decimals : Bool) (t : Text) : Bool :=
  match Regex.read? .plain (Regex.anchored (Regex.grouped (m.regex decimals))) with
  | some r => r.isMatch t
  | none => true

/-- The number that a text writes, in plain form. -/
def plainForm? (m : NumberMarks) (decimals : Bool) (t : Text) : Option Text :=
  if m.accepts decimals t.trim then some (m.normalise t.trim) else none

end NumberMarks

namespace DataType

/-- A data type of numbers; `convert` gets them in plain form. -/
def number (name : String) (kind : ValueKind) (decimals : Bool)
    (convert : Text → Except String Value) : DataType where
  name := name
  kind := kind
  regex l := l.numberMarks.regex decimals
  hints l := [l.numberMarks.hint decimals]
  read l t :=
    match l.numberMarks.plainForm? decimals t with
    | some plain => convert plain
    | none => .error "not a number in this locale's format"

/-- Reads a whole number of a range. -/
def readInteger (range : IntegerRange) (t : Text) : Except String Value :=
  match range.read t with
  | .ok n => .ok (.integer n)
  | .error f => .error f.message

/-- Reads a number with a fraction. -/
def readDecimal (t : Text) : Except String Value :=
  match Double.read t with
  | .ok x => .ok (.decimal x)
  | .error f => .error f.message

/-- Whole numbers of 32 bits. -/
def integer : DataType := number "integer" .integer false (readInteger .signed32)

/-- Whole numbers of 64 bits, under a given name. -/
def long (name : String) : DataType := number name .integer false (readInteger .signed64)

/-- Numbers with a fraction, under a given name. -/
def decimal (name : String) : DataType := number name .decimal true readDecimal

end DataType
end StepMatch
