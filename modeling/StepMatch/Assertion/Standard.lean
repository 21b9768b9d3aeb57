import StepMatch.Assertion.Comparison
import StepMatch.Assertion.TextCheck
import StepMatch.DataType.Standard

/-!
# The standard assertions and factories

The assertions that need no phrase, and the factories for the standard data types.
-/

namespace StepMatch

/-- Assertions by name. -/
abbrev Assertions := Registry Assertion

/-- Assertion factories by name. -/
abbrev AssertionFactories := Registry AssertionFactory

/-- A test of values without a reference. Its description completes "expected the value to". -/
structure Predicate where
  name : String
  description : String
  test : Value → Bool

namespace Predicate

/-- The assertion of a predicate. -/
def assertion (p : Predicate) : Assertion := .ofTest p.name p.description p.test

/-- How a number stands to zero. -/
def orderToZero? (v : Value) : Option Ordering := v.order? (.integer 0)

/-- Texts without characters. -/
def isEmpty : Predicate := ⟨"is-empty", "be empty", TextCheck.empty.test⟩

/-- Texts with characters. -/
def isNotEmpty : Predicate := ⟨"is-not-empty", "not be empty", TextCheck.notEmpty.test⟩

/-- Numbers above zero. -/
def isPositive : Predicate :=
  ⟨"is-positive", "be positive", fun v => orderToZero? v == some .gt⟩

/-- Numbers below zero. -/
def isNegative : Predicate :=
  ⟨"is-negative", "be negative", fun v => orderToZero? v == some .lt⟩

/-- Zero. -/
def isZero : Predicate := ⟨"is-zero", "be zero", fun v => orderToZero? v == some .eq⟩

/-- The standard predicates. -/
def standard : List Predicate := [isEmpty, isNotEmpty, isPositive, isNegative, isZero]

end Predicate

namespace Assertions

/-- The standard assertions. -/
def standard : Assertions := Registry.empty.registerAll (Predicate.standard.map (·.assertion))

end Assertions

namespace AssertionFactories

/-- The standard factories. -/
def standard : AssertionFactories :=
  Registry.empty.registerAll
    [.comparing "number-assertion" (.long "number") .numeric,
     .comparing "integer-assertion" .integer .numeric,
     .comparing "decimal-assertion" (.decimal "decimal") .numeric,
     .comparing "date-assertion" .date .temporal,
     .comparing "time-assertion" .time .temporal,
     .comparing "datetime-assertion" .dateTime .temporal,
     .checkingTexts "text-assertion" .quotedText]

end AssertionFactories
end StepMatch
