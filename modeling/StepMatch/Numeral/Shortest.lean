/-!
# The shortest decimal that reads back

A number of double precision stands for all decimals that round to it. Of the decimals with the
fewest digits among those, the nearest to the number writes it.
-/

namespace StepMatch.Numeral

/-- A decimal number `digits · 10 ^ exponent`. -/
structure Decimal where
  digits : Nat
  exponent : Int
deriving DecidableEq, Repr

/-- A positive finite number `significand · 2 ^ exponent`. -/
structure Binary where
  significand : Nat
  exponent : Int
deriving DecidableEq, Repr

namespace Binary

/-- The number whose bits, sign taken away, are given. -/
def ofBits (bits : Nat) : Binary :=
  let biased : Nat := bits / Nat.pow 2 52
  let fraction : Nat := bits % Nat.pow 2 52
  if biased == 0 then ⟨fraction, -1074⟩ else ⟨Nat.pow 2 52 + fraction, (biased : Int) - 1075⟩

/-- The number times `4` as a fraction, so that the ends of its interval are whole numbers. -/
def quadruple (b : Binary) : Nat × Nat :=
  if 0 ≤ b.exponent then (4 * b.significand * Nat.pow 2 b.exponent.toNat, 1)
  else (4 * b.significand, Nat.pow 2 (-b.exponent).toNat)

/-- The unit of the significand, over the denominator of `quadruple`. -/
def unit (b : Binary) : Nat := if 0 ≤ b.exponent then Nat.pow 2 b.exponent.toNat else 1

/-- Whether the neighbour below is half as far away as the one above. -/
def isLowestOfBinade (b : Binary) : Bool := b.significand == Nat.pow 2 52 && -1074 < b.exponent

/-- Whether `num / den` rounds to the number. The ends of the interval do so when the significand
is even. -/
def attracts (b : Binary) (num den : Nat) : Bool :=
  let (value, valueDen) := b.quadruple
  let below := if b.isLowestOfBinade then b.unit else 2 * b.unit
  let low := (value - below) * den
  let high := (value + 2 * b.unit) * den
  let point := 4 * num * valueDen
  if b.significand % 2 == 0 then low ≤ point && point ≤ high else low < point && point < high

end Binary

/-- `digits · 10 ^ exponent` as a fraction. -/
def Decimal.fraction (d : Decimal) : Nat × Nat :=
  if 0 ≤ d.exponent then (d.digits * Nat.pow 10 d.exponent.toNat, 1)
  else (d.digits, Nat.pow 10 (-d.exponent).toNat)

/-- Whether the decimal rounds to the number. -/
def Binary.attractsDecimal (b : Binary) (d : Decimal) : Bool :=
  b.attracts d.fraction.1 d.fraction.2

/-- The number of decimal digits of a whole number. -/
def digitCount (n : Nat) : Nat := (Nat.toDigits 10 n).length

/-- The power of ten that a positive fraction reaches: `10 ^ k ≤ num / den < 10 ^ (k + 1)`. -/
def decimalExponent (num den : Nat) : Int :=
  let guess : Int := (digitCount num : Int) - (digitCount den : Int)
  let reached := if 0 ≤ guess then den * Nat.pow 10 guess.toNat ≤ num
    else den ≤ num * Nat.pow 10 (-guess).toNat
  if reached then guess else guess - 1

/-- The decimals of a grid on both sides of the fraction, the nearer one first. -/
def gridNeighbours (num den : Nat) (exponent : Int) : List Decimal :=
  let (n, d) := if 0 ≤ exponent then (num, den * Nat.pow 10 exponent.toNat)
    else (num * Nat.pow 10 (-exponent).toNat, den)
  let lower : Decimal := ⟨n / d, exponent⟩
  let upper : Decimal := ⟨n / d + 1, exponent⟩
  if 2 * (n % d) < d then [lower, upper] else [upper, lower]

/-- The first grid, from the coarsest on, that has a decimal which rounds to the number. -/
def shortestFrom (b : Binary) (num den : Nat) (exponent : Int) : Nat → Decimal
  | 0 => ⟨0, 0⟩
  | grids + 1 =>
    match (gridNeighbours num den exponent).find? b.attractsDecimal with
    | some d => d
    | none => shortestFrom b num den (exponent - 1) grids

/-- The decimal with the fewest digits that rounds to a positive number. The first grid has the
next power of ten on it; seventeen digits are always enough. -/
def shortest (b : Binary) : Decimal :=
  let (value, den) := b.quadruple
  shortestFrom b value (4 * den) (decimalExponent value (4 * den) + 1) 19

end StepMatch.Numeral
