import StepMatch.Text.Quoted
import StepMatch.Numeral.Double
import StepMatch.Value.Calendar

/-!
# Values

What the slots of an expression take from a sentence: texts, numbers, dates and times. Numbers of
both kinds are compared with each other, any other value only with its own kind.
-/

namespace StepMatch

/-- What kind of value a data type reads. -/
inductive ValueKind where
  | text
  | integer
  | decimal
  | date
  | time
  | dateTime
deriving DecidableEq, Repr

/-- The name of a kind. -/
def ValueKind.name : ValueKind → String
  | .text => "text"
  | .integer => "integer"
  | .decimal => "decimal"
  | .date => "date"
  | .time => "time"
  | .dateTime => "date-time"

/-- A value. -/
inductive Value where
  | text (t : Text)
  | integer (n : Int)
  | decimal (x : Float)
  | date (d : Date)
  | time (t : Time)
  | dateTime (d : Date) (t : Time)

/-- The order of texts: by their first difference in code points, a beginning before the whole. -/
def Text.order : Text → Text → Ordering
  | [], [] => .eq
  | [], _ :: _ => .lt
  | _ :: _, [] => .gt
  | c :: t, d :: u => (compare c.toNat d.toNat).then (order t u)

namespace Value

/-- The kind of a value. -/
def kind : Value → ValueKind
  | .text _ => .text
  | .integer _ => .integer
  | .decimal _ => .decimal
  | .date _ => .date
  | .time _ => .time
  | .dateTime .. => .dateTime

/-- The text of a text. -/
def text? : Value → Option Text
  | .text t => some t
  | _ => none

/-- The number of a whole number. -/
def integer? : Value → Option Int
  | .integer n => some n
  | _ => none

/-- A number of either kind, with a fraction. -/
def decimal? : Value → Option Float
  | .integer n => some (Double.ofInt n)
  | .decimal x => some x
  | _ => none

/-- The order of two values, if they can be compared. -/
def order? : Value → Value → Option Ordering
  | .integer m, .integer n => some (compare m n)
  | .text t, .text u => some (t.order u)
  | .date d, .date e => some (d.order e)
  | .time t, .time u => some (t.order u)
  | .dateTime d t, .dateTime e u => some ((d.order e).then (t.order u))
  | v, w => do Double.order? (← v.decimal?) (← w.decimal?)

/-- Whether two values are the same: of one kind, and equal. A number that is none equals
nothing, and the two zeros are equal. -/
def same : Value → Value → Bool
  | .text t, .text u => t == u
  | .integer m, .integer n => m == n
  | .decimal x, .decimal y => x == y
  | .date d, .date e => d == e
  | .time t, .time u => t == u
  | .dateTime d t, .dateTime e u => d == e && t == u
  | _, _ => false

/-- A value as it is shown to people. -/
def display : Value → String
  | .text t => t.quoted
  | .integer n => ToString.toString n
  | .decimal x => Double.display x
  | .date d => d.display
  | .time t => t.display
  | .dateTime d t => d.display ++ "T" ++ t.display

end Value
end StepMatch
