import StepMatch.Numeral.Integer
import StepMatch.Value.Calendar

/-!
# Dates and times in ISO form

A date is a year of four digits with an optional sign, a month and a day, joined by dashes. A time
is an hour, a minute, perhaps a second, and after that perhaps a fraction, joined by colons and a
point. Only ASCII digits count, and the whole text has to be used.
-/

namespace StepMatch

/-- The number that the first `n` characters write, which have to be digits, and what follows. -/
def takeDigits? (n : Nat) (t : Text) : Option (Nat × Text) :=
  if (t.take n).length == n && (t.take n).all isAsciiDigit then
    some (digitsValue (t.take n), t.drop n)
  else none

/-- What follows a given character at the start of the text. -/
def skip? (c : Char) : Text → Option Text
  | d :: t => if c == d then some t else none
  | [] => none

namespace Date

/-- The sign of a year: whether it is negative, and what follows. -/
def takeSign : Text → Bool × Text
  | '-' :: t => (true, t)
  | '+' :: t => (false, t)
  | t => (false, t)

/-- The date that a text writes in ISO form. -/
def readIso? (t : Text) : Option Date := do
  let (negative, t) := takeSign t
  let (year, t) ← takeDigits? 4 t
  let (month, t) ← takeDigits? 2 (← skip? '-' t)
  let (day, t) ← takeDigits? 2 (← skip? '-' t)
  if t.isEmpty then of? (if negative then -year else year) month day else none

end Date

namespace Time

/-- The nanoseconds of a fraction; digits after the ninth do not count. -/
def nanosOf (fraction : Text) : Nat :=
  digitsValue (fraction.take 9) * Nat.pow 10 (9 - (fraction.take 9).length)

/-- Hour, minute and second, and what follows. -/
def takeIso? (t : Text) : Option ((Nat × Nat × Nat) × Text) := do
  let (hour, t) ← takeDigits? 2 t
  let (minute, t) ← takeDigits? 2 (← skip? ':' t)
  let (second, t) ← takeDigits? 2 (← skip? ':' t)
  some ((hour, minute, second), t)

/-- The time that a text writes as hour, minute and second, perhaps with a fraction. -/
def readIsoSeconds? (t : Text) : Option Time := do
  let ((hour, minute, second), t) ← takeIso? t
  match t with
  | [] => of? hour minute second 0
  | '.' :: fraction =>
    if !fraction.isEmpty && fraction.all isAsciiDigit then
      of? hour minute second (nanosOf fraction)
    else none
  | _ => none

/-- The time that a text writes in ISO form. -/
def readIso? (t : Text) : Option Time :=
  readIsoSeconds? t <|> readIsoSeconds? (t ++ ":00".toList)

end Time
end StepMatch
