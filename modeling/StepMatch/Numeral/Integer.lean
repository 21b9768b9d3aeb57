import StepMatch.Text.Digit

/-!
# Whole numbers

Whole numbers are read from an optional sign and ASCII digits, one digit after the other. The
first digit at which the number is wrong or leaves its range decides the fault.
-/

namespace StepMatch

/-- Why a text is not a whole number of a range. -/
inductive IntegerFault where
  | empty
  | invalidDigit
  | tooLarge
  | tooSmall
deriving DecidableEq, Repr

/-- The wording of each fault. -/
def IntegerFault.message : IntegerFault → String
  | .empty => "cannot parse integer from empty string"
  | .invalidDigit => "invalid digit found in string"
  | .tooLarge => "number too large to fit in target type"
  | .tooSmall => "number too small to fit in target type"

/-- The value of an ASCII digit. -/
def digitValue (c : Char) : Nat := c.toNat - 0x30

/-- The number that ASCII digits write. -/
def digitsValue (t : Text) : Nat := t.foldl (fun n c => n * 10 + digitValue c) 0

/-- The number that a text of ASCII digits writes, when it is one. -/
def readNatural? (t : Text) : Option Nat :=
  if t.isEmpty || !t.all isAsciiDigit then none else some (digitsValue t)

/-- The whole numbers from `low` to `high`. -/
structure IntegerRange where
  low : Int
  high : Int
deriving DecidableEq, Repr

namespace IntegerRange

/-- The signed numbers of 32 bits. -/
def signed32 : IntegerRange := ⟨-2147483648, 2147483647⟩

/-- The signed numbers of 64 bits. -/
def signed64 : IntegerRange := ⟨-9223372036854775808, 9223372036854775807⟩

/-- Whether a number lies in the range. -/
def contains (r : IntegerRange) (n : Int) : Bool := r.low ≤ n && n ≤ r.high

/-- Reads digits after `n`; `negative` says that they are taken away. -/
def readDigits (r : IntegerRange) (negative : Bool) (n : Int) : Text → Except IntegerFault Int
  | [] => .ok n
  | c :: t =>
    if isAsciiDigit c then
      let n' := if negative then n * 10 - digitValue c else n * 10 + digitValue c
      if n' < r.low then .error .tooSmall
      else if r.high < n' then .error .tooLarge
      else readDigits r negative n' t
    else .error .invalidDigit

/-- Reads a whole number of the range. -/
def read (r : IntegerRange) : Text → Except IntegerFault Int
  | [] => .error .empty
  | ['+'] => .error .invalidDigit
  | ['-'] => .error .invalidDigit
  | '+' :: t => r.readDigits false 0 t
  | '-' :: t => r.readDigits true 0 t
  | t => r.readDigits false 0 t

end IntegerRange
end StepMatch
