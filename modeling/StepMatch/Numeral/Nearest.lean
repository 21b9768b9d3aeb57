/-!
# The nearest binary number

A positive fraction is rounded to the nearest number with a significand of 53 bits and an exponent
from -1074 on; a half goes to the even neighbour. This is how decimal numbers become numbers of
double precision. All arithmetic is on whole numbers and exact.
-/

namespace StepMatch.Numeral

/-- The quotient rounded to the nearest whole number, a half to the even one. -/
def roundHalfEven (num den : Nat) : Nat :=
  let quotient := num / den
  let rest := num % den
  if den < 2 * rest || (2 * rest == den && quotient % 2 == 1) then quotient + 1 else quotient

/-- The numerator and the denominator of `num / den` divided by a power of two. -/
def scaleDown (num den : Nat) (exponent : Int) : Nat × Nat :=
  if 0 ≤ exponent then (num, den * Nat.pow 2 exponent.toNat) else (num * Nat.pow 2 (-exponent).toNat, den)

/-- The exponent with which `num / den` has a significand of 53 bits, or the least exponent there
is. -/
def binaryExponent (num den : Nat) : Int :=
  let guess : Int := (Nat.log2 num : Int) - (Nat.log2 den : Int) - 52
  let (n, d) := scaleDown num den guess
  let exponent := if n < d * Nat.pow 2 52 then guess - 1 else guess
  max exponent (-1074)

/-- The bits of infinity. -/
def infinityBits : Nat := 0x7FF * Nat.pow 2 52

/-- The bits of the number of double precision nearest to `num / den`. -/
def nearestBits (num den : Nat) : Nat :=
  if num == 0 then 0
  else
    let exponent := binaryExponent num den
    let (n, d) := scaleDown num den exponent
    let significand := roundHalfEven n d
    let bits := if significand < Nat.pow 2 52 then significand
      else (exponent + 1075).toNat * Nat.pow 2 52 + (significand - Nat.pow 2 52)
    min bits infinityBits

end StepMatch.Numeral
