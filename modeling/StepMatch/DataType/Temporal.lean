import StepMatch.DataType.Basic
import StepMatch.Value.Iso
import StepMatch.Locale.Conventions
import StepMatch.Regex.Writing
import StepMatch.Regex.Reading
import StepMatch.Regex.Search

/-!
# Dates and times in sentences

A date or a time is written in one of the layouts of the locale, or in ISO form. The layouts are
tried first, in order. Each gives two regexes: one without names, for finding a value in a
sentence, and one whose groups are named after the parts, for reading it.
-/

namespace StepMatch

/-- What a temporal value holds. -/
inductive TemporalForm where
  | date
  | time
  | dateTime
deriving DecidableEq, Repr

/-- A layout of a temporal value. -/
inductive TemporalLayout where
  | date (d : DateLayout)
  | time (t : TimeLayout)
  | dateTime (d : DateLayout) (t : TimeLayout)
deriving DecidableEq, Repr

/-- A group for a part of a value, named after it or not. -/
def partGroup (named : Bool) (name : String) (regex : Text) : Text :=
  if named then Regex.namedGroup name.toList regex else Regex.grouped regex

/-- A regex for the text between two parts: blanks stand for any others. `inBlanks` says that
blanks are written already. -/
def gapRegex (inBlanks : Bool) : Text → Text
  | [] => []
  | c :: t =>
    if isBlank c then (if inBlanks then [] else Regex.blanks) ++ gapRegex true t
    else Regex.escapeChar c ++ gapRegex false t

/-- Whether a name of a month is tried before another one: the longer in bytes, or else the
smaller. -/
def monthBefore (a b : String) : Bool :=
  b.utf8ByteSize < a.utf8ByteSize || (a.utf8ByteSize == b.utf8ByteSize && a ≤ b)

/-- Puts a name in front of the first one that it is tried before. A name that is there already is
not put there again. -/
def insertMonth (name : String) : List String → List String
  | [] => [name]
  | other :: names =>
    if name == other then other :: names
    else if monthBefore name other then name :: other :: names
    else other :: insertMonth name names

/-- A regex for the names of months, in any case. -/
def monthRegex (names : List String) : Text :=
  Regex.foldedGroup (Regex.alternatives
    ((names.foldr insertMonth []).map fun name => Regex.escape name.toList))

namespace DateLayout

/-- The regex of a part. -/
def partRegex (named : Bool) (months : MonthNames) : DatePart → Text
  | .day => partGroup named "day" (Regex.digitsUpTo 2)
  | .year => partGroup named "year" (Regex.digits 4)
  | .month .numeric => partGroup named "month" (Regex.digitsUpTo 2)
  | .month form => partGroup named "month" (monthRegex (months.inForm form))

/-- The regex of a date in this layout. -/
def regex (d : DateLayout) (named : Bool) (months : MonthNames) : Text :=
  partRegex named months d.first ++ gapRegex false d.gap ++ partRegex named months d.second
    ++ gapRegex false d.gap' ++ partRegex named months d.third ++ gapRegex false d.ending

end DateLayout

namespace TimeLayout

/-- The regex of a time in this layout. -/
def regex (t : TimeLayout) (named : Bool) : Text :=
  let seconds := if t.seconds then ':' :: partGroup named "second" (Regex.digits 2) else []
  let half := if t.halfDay then
      "\\s*".toList ++ partGroup named "meridiem" (Regex.foldedGroup "[ap]\\.?m\\.?".toList)
    else []
  partGroup named "hour" (Regex.digitsUpTo 2) ++ ':' :: partGroup named "minute" (Regex.digits 2)
    ++ seconds ++ half

end TimeLayout

namespace TemporalLayout

/-- What may stand between a date and a time. -/
def separator : Text := "(?:,\\s*|\\s+)".toList

/-- The regex of a value in this layout. -/
def regex (layout : TemporalLayout) (named : Bool) (months : MonthNames) : Text :=
  match layout with
  | .date d => d.regex named months
  | .time t => t.regex named
  | .dateTime d t => d.regex named months ++ separator ++ t.regex named

/-- How the layout is shown to people. -/
def hint : TemporalLayout → String
  | .date d => d.hint
  | .time t => t.hint
  | .dateTime d t => d.hint ++ " " ++ t.hint

end TemporalLayout

namespace MonthNames

/-- The number of the month with a given name, the case of letters aside. Long names are tried
first. -/
def numberOf? (months : MonthNames) (name : Text) : Option Nat :=
  let sameName (other : String) : Bool := Text.lower other.toList == name.lower
  ((months.long.findIdx? sameName) <|> (months.short.findIdx? sameName)).map (· + 1)

/-- The number of the month that a text writes in digits or by name. -/
def readMonth? (months : MonthNames) (t : Text) : Option Nat :=
  readNatural? t <|> months.numberOf? t

end MonthNames

/-- The hour of the day for an hour up to twelve and the half of the day. -/
def fullHour? (afternoon : Bool) (hour : Nat) : Option Nat :=
  if 1 ≤ hour ∧ hour ≤ 12 then some (hour % 12 + if afternoon then 12 else 0) else none

namespace TemporalForm

/-- The layouts of a locale, in the order in which they are tried. -/
def layouts (form : TemporalForm) (l : Locale) : List TemporalLayout :=
  match form with
  | .date => l.dateLayouts.map .date
  | .time => l.timeLayouts.map .time
  | .dateTime => l.dateLayouts.flatMap fun d => l.timeLayouts.map (.dateTime d)

/-- The regex of a date in ISO form. -/
def isoDateRegex : Text :=
  Regex.digits 4 ++ '-' :: Regex.digits 2 ++ '-' :: Regex.digits 2

/-- The regex of a time in ISO form. -/
def isoTimeRegex : Text :=
  let fraction := "\\.".toList ++ Regex.digitsUpTo 9
  let second := ':' :: Regex.digits 2 ++ Regex.grouped fraction ++ ['?']
  Regex.digits 2 ++ ':' :: Regex.digits 2 ++ Regex.grouped second ++ ['?']

/-- The regex of the ISO form. -/
def isoRegex : TemporalForm → Text
  | .date => isoDateRegex
  | .time => isoTimeRegex
  | .dateTime => isoDateRegex ++ "[T ]".toList ++ isoTimeRegex

/-- How the ISO form is shown to people. -/
def isoHint : TemporalForm → String
  | .date => "yyyy-MM-dd"
  | .time => "HH:mm:ss"
  | .dateTime => "yyyy-MM-dd'T'HH:mm:ss"

/-- The kind of the values. -/
def kind : TemporalForm → ValueKind
  | .date => .date
  | .time => .time
  | .dateTime => .dateTime

/-- The regex that finds a value in a sentence. -/
def regex (form : TemporalForm) (l : Locale) : Text :=
  Regex.alternatives
    ((form.layouts l).map (fun layout => layout.regex false l.monthNames) ++ [form.isoRegex])

/-- The formats that are accepted. -/
def hints (form : TemporalForm) (l : Locale) : List String :=
  (form.layouts l).map TemporalLayout.hint ++ [form.isoHint]

/-- The date in the parts that a layout found. -/
def dateOf? (months : MonthNames) (o : Regex.Outcome) : Option Date := do
  let day ← readNatural? (← o.group? "day".toList)
  let month ← months.readMonth? (← o.group? "month".toList)
  let year ← readNatural? (← o.group? "year".toList)
  Date.of? year month day

/-- The time in the parts that a layout found. -/
def timeOf? (o : Regex.Outcome) : Option Time := do
  let hour ← readNatural? (← o.group? "hour".toList)
  let minute ← readNatural? (← o.group? "minute".toList)
  let second ← match o.group? "second".toList with
    | some second => readNatural? second
    | none => some 0
  let hour ← match o.group? "meridiem".toList with
    | some half => fullHour? (half.head?.any fun c => c.toLower == 'p') hour
    | none => some hour
  Time.of? hour minute second 0

/-- The value in the parts that a layout found. -/
def valueOf? (form : TemporalForm) (months : MonthNames) (o : Regex.Outcome) : Option Value :=
  match form with
  | .date => (dateOf? months o).map .date
  | .time => (timeOf? o).map .time
  | .dateTime => do return .dateTime (← dateOf? months o) (← timeOf? o)

/-- The value that a text writes in a layout. -/
def readLayout? (form : TemporalForm) (months : MonthNames) (t : Text)
    (layout : TemporalLayout) : Option Value := do
  let r ← Regex.read? .plain (Regex.anchored (layout.regex true months))
  form.valueOf? months (← r.search t)

/-- The value that a text writes in ISO form. -/
def readIso? (form : TemporalForm) (t : Text) : Option Value :=
  match form with
  | .date => (Date.readIso? t).map .date
  | .time => (Time.readIso? t).map .time
  | .dateTime => do
    let (before, after) ← t.splitAtFirst fun c => c == 'T' || c == ' '
    return .dateTime (← Date.readIso? before) (← Time.readIso? after)

/-- The value that a text writes. -/
def read? (form : TemporalForm) (l : Locale) (t : Text) : Option Value :=
  (form.layouts l).findSome? (form.readLayout? l.monthNames t.trim) <|> form.readIso? t.trim

end TemporalForm

namespace DataType

/-- A data type of temporal values. -/
def temporal (name : String) (form : TemporalForm) : DataType where
  name := name
  kind := form.kind
  regex := form.regex
  hints := form.hints
  read l t :=
    match form.read? l t with
    | some v => .ok v
    | none => .error ("not a valid " ++ form.kind.name)

/-- Dates. -/
def date : DataType := temporal "date" .date

/-- Times of day. -/
def time : DataType := temporal "time" .time

/-- Dates with a time of day. -/
def dateTime : DataType := temporal "datetime" .dateTime

end DataType
end StepMatch
