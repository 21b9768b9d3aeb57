import StepMatch.Numeral.Nearest
import StepMatch.Numeral.Shortest
import StepMatch.Numeral.Integer

/-!
# Numbers with a fraction

Numbers of double precision, read from decimal text and written in the fewest digits that read
back. They are written positionally, without an exponent, and a whole number without a point.
-/

namespace StepMatch

/-- Why a text is not a number. -/
inductive DoubleFault where
  | empty
  | invalid
deriving DecidableEq, Repr

/-- The wording of each fault. -/
def DoubleFault.message : DoubleFault → String
  | .empty => "cannot parse float from empty string"
  | .invalid => "invalid float literal"

namespace Double

/-- The bit of the sign. -/
def signBit : Nat := Nat.pow 2 63

/-- The number with the given bits of magnitude and the given sign. -/
def ofMagnitude (negative : Bool) (bits : Nat) : Float :=
  .ofBits (UInt64.ofNat (if negative then bits + signBit else bits))

/-- The nearest number to `digits · 10 ^ exponent`. Beyond these exponents it is infinite or
zero. -/
def ofDecimal (negative : Bool) (digits : Nat) (exponent : Int) : Float :=
  let size := exponent + Numeral.digitCount digits
  let bits :=
    if digits == 0 || size < -400 then 0
    else if 400 < size then Numeral.infinityBits
    else if 0 ≤ exponent then Numeral.nearestBits (digits * Nat.pow 10 exponent.toNat) 1
    else Numeral.nearestBits digits (Nat.pow 10 (-exponent).toNat)
  ofMagnitude negative bits

/-- The nearest number to a whole number. -/
def ofInt (n : Int) : Float := ofMagnitude (n < 0) (Numeral.nearestBits n.natAbs 1)

/-- The exponent after its letter: an optional sign and digits. -/
def readExponent? : Text → Option Int
  | '+' :: t => (readNatural? t).map Int.ofNat
  | '-' :: t => (readNatural? t).map fun n => -Int.ofNat n
  | t => (readNatural? t).map Int.ofNat

/-- Reads digits with an optional point among them and an optional exponent after them. -/
def readUnsigned? (negative : Bool) (t : Text) : Option Float :=
  let whole := t.takeWhile isAsciiDigit
  let afterWhole := t.dropWhile isAsciiDigit
  let (fraction, rest) := match afterWhole with
    | '.' :: u => (u.takeWhile isAsciiDigit, u.dropWhile isAsciiDigit)
    | u => ([], u)
  if whole.isEmpty && fraction.isEmpty then none
  else
    let number (exponent : Int) : Float :=
      ofDecimal negative (digitsValue (whole ++ fraction)) (exponent - fraction.length)
    match rest with
    | [] => some (number 0)
    | c :: u => if c == 'e' || c == 'E' then (readExponent? u).map number else none

/-- Reads the names of what is no finite number; the case of their letters does not count. -/
def readSpecial? (negative : Bool) (t : Text) : Option Float :=
  let name := Text.asString (t.map Char.toLower)
  if name == "inf" || name == "infinity" then some (ofMagnitude negative Numeral.infinityBits)
  else if name == "nan" then some (ofMagnitude negative (Numeral.infinityBits + Nat.pow 2 51))
  else none

/-- Reads a number. -/
def read (t : Text) : Except DoubleFault Float :=
  let (negative, unsigned) := match t with
    | '-' :: u => (true, u)
    | '+' :: u => (false, u)
    | u => (false, u)
  if t.isEmpty then .error .empty
  else match readUnsigned? negative unsigned <|> readSpecial? negative unsigned with
    | some x => .ok x
    | none => .error .invalid

/-- Writes a decimal positionally. -/
def positional (d : Numeral.Decimal) : Text :=
  let digits := Nat.toDigits 10 d.digits
  if 0 ≤ d.exponent then digits ++ List.replicate d.exponent.toNat '0'
  else
    let places := (-d.exponent).toNat
    let padded := List.replicate (places + 1 - digits.length) '0' ++ digits
    padded.take (padded.length - places) ++ '.' :: padded.drop (padded.length - places)

/-- The number as text. -/
def display (x : Float) : String :=
  let bits := x.toBits.toNat
  let magnitude := bits % signBit
  let sign := if bits < signBit then "" else "-"
  if Numeral.infinityBits < magnitude then "NaN"
  else if magnitude == Numeral.infinityBits then sign ++ "inf"
  else if magnitude == 0 then sign ++ "0"
  else sign ++ Text.asString (positional (Numeral.shortest (.ofBits magnitude)))

/-- The order of two numbers; a number that is none has no place in it. -/
def order? (x y : Float) : Option Ordering :=
  if x < y then some .lt else if x == y then some .eq else if y < x then some .gt else none

end Double
end StepMatch
