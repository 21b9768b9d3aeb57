import StepMatch.Text.Blank

/-!
# Layouts of dates and times

The ways in which a date or a time of day is written: which parts in which order, and what stands
between them. The layouts and the names of the months are those of a few languages.
-/

namespace StepMatch

/-- How a month is written. -/
inductive MonthForm where
  | numeric
  | short
  | long
deriving DecidableEq, Repr

/-- A part of a date. -/
inductive DatePart where
  | day
  | month (form : MonthForm)
  | year
deriving DecidableEq, Repr

/-- A way to write a date: three parts, what stands between them, and what follows. -/
structure DateLayout where
  /-- How the layout is shown to authors. -/
  hint : String
  first : DatePart
  gap : Text
  second : DatePart
  gap' : Text
  third : DatePart
  /-- What follows the last part. -/
  ending : Text
deriving DecidableEq, Repr

/-- A way to write a time of day. -/
structure TimeLayout where
  /-- How the layout is shown to authors. -/
  hint : String
  /-- Whether hours run from one to twelve, with a mark for the half of the day. -/
  halfDay : Bool
  /-- Whether seconds are written. -/
  seconds : Bool
deriving DecidableEq, Repr

namespace DateLayout

/-- A day, a month and a year in this order, with the given text between them. -/
def dayMonthYear (hint : String) (form : MonthForm) (gap gap' : String) : DateLayout :=
  ⟨hint, .day, gap.toList, .month form, gap'.toList, .year, []⟩

/-- A month, a day and a year in this order, with the given text between them. -/
def monthDayYear (hint : String) (form : MonthForm) (gap gap' : String) : DateLayout :=
  ⟨hint, .month form, gap.toList, .day, gap'.toList, .year, []⟩

/-- A year, a month and a day in this order, with the given text between and after them. -/
def yearMonthDay (hint : String) (gap gap' ending : String) : DateLayout :=
  ⟨hint, .year, gap.toList, .month .numeric, gap'.toList, .day, ending.toList⟩

/-- English as written in the United States. -/
def american : List DateLayout :=
  [monthDayYear "MM/dd/yyyy" .numeric "/" "/",
   monthDayYear "MMM d, yyyy" .short " " ", ",
   monthDayYear "MMMM d, yyyy" .long " " ", "]

/-- English elsewhere, French and Italian. -/
def european : List DateLayout :=
  [dayMonthYear "dd/MM/yyyy" .numeric "/" "/",
   dayMonthYear "d MMM yyyy" .short " " " ",
   dayMonthYear "d MMMM yyyy" .long " " " "]

/-- Spanish. -/
def spanish : List DateLayout :=
  [dayMonthYear "dd/MM/yyyy" .numeric "/" "/",
   dayMonthYear "d MMM yyyy" .short " " " ",
   dayMonthYear "d 'de' MMMM 'de' yyyy" .long " de " " de "]

/-- Portuguese. -/
def portuguese : List DateLayout :=
  [dayMonthYear "dd/MM/yyyy" .numeric "/" "/",
   dayMonthYear "d 'de' MMM 'de' yyyy" .short " de " " de ",
   dayMonthYear "d 'de' MMMM 'de' yyyy" .long " de " " de "]

/-- German. -/
def german : List DateLayout :=
  [dayMonthYear "dd.MM.yyyy" .numeric "." ".",
   dayMonthYear "d. MMM yyyy" .short ". " " ",
   dayMonthYear "d. MMMM yyyy" .long ". " " "]

/-- Chinese and Japanese. -/
def eastAsian : List DateLayout :=
  [yearMonthDay "yyyy/MM/dd" "/" "/" "",
   yearMonthDay "yyyy年M月d日" "年" "月" "日"]

end DateLayout

namespace TimeLayout

/-- Hours to twelve by preference. -/
def halfDays : List TimeLayout :=
  [⟨"h:mm:ss a", true, true⟩, ⟨"h:mm a", true, false⟩, ⟨"HH:mm:ss", false, true⟩,
   ⟨"HH:mm", false, false⟩]

/-- Hours to twenty-four. -/
def fullDays : List TimeLayout := [⟨"HH:mm:ss", false, true⟩, ⟨"HH:mm", false, false⟩]

end TimeLayout

/-- The names of the months in one language, January first. -/
structure MonthNames where
  long : List String
  short : List String
deriving DecidableEq, Repr

namespace MonthNames

/-- English. -/
def english : MonthNames where
  long := ["January", "February", "March", "April", "May", "June", "July", "August",
    "September", "October", "November", "December"]
  short := ["Jan", "Feb", "Mar", "Apr", "May", "Jun", "Jul", "Aug", "Sep", "Oct", "Nov", "Dec"]

/-- Spanish. -/
def spanish : MonthNames where
  long := ["enero", "febrero", "marzo", "abril", "mayo", "junio", "julio", "agosto",
    "septiembre", "octubre", "noviembre", "diciembre"]
  short := ["ene", "feb", "mar", "abr", "may", "jun", "jul", "ago", "sept", "oct", "nov", "dic"]

/-- French. -/
def french : MonthNames where
  long := ["janvier", "février", "mars", "avril", "mai", "juin", "juillet", "août",
    "septembre", "octobre", "novembre", "décembre"]
  short := ["janv.", "févr.", "mars", "avr.", "mai", "juin", "juil.", "août", "sept.", "oct.",
    "nov.", "déc."]

/-- German. -/
def german : MonthNames where
  long := ["Januar", "Februar", "März", "April", "Mai", "Juni", "Juli", "August", "September",
    "Oktober", "November", "Dezember"]
  short := ["Jan.", "Feb.", "März", "Apr.", "Mai", "Juni", "Juli", "Aug.", "Sept.", "Okt.",
    "Nov.", "Dez."]

/-- Italian. -/
def italian : MonthNames where
  long := ["gennaio", "febbraio", "marzo", "aprile", "maggio", "giugno", "luglio", "agosto",
    "settembre", "ottobre", "novembre", "dicembre"]
  short := ["gen", "feb", "mar", "apr", "mag", "giu", "lug", "ago", "set", "ott", "nov", "dic"]

/-- Portuguese. -/
def portuguese : MonthNames where
  long := ["janeiro", "fevereiro", "março", "abril", "maio", "junho", "julho", "agosto",
    "setembro", "outubro", "novembro", "dezembro"]
  short := ["jan.", "fev.", "mar.", "abr.", "mai.", "jun.", "jul.", "ago.", "set.", "out.",
    "nov.", "dez."]

/-- The numbers of the months. -/
def numbers : List String := ["1", "2", "3", "4", "5", "6", "7", "8", "9", "10", "11", "12"]

/-- The names in a given form. -/
def inForm (names : MonthNames) : MonthForm → List String
  | .numeric => numbers
  | .short => names.short
  | .long => names.long

end MonthNames
end StepMatch
