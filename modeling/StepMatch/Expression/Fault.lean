import StepMatch.Text.Blank

/-!
# Faults of an expression

Why an expression cannot be read, and where. A fault has a cause, the byte offset at which the
trouble starts, and the piece of the expression that is to blame, when there is one.
-/

namespace StepMatch

/-- What is wrong with an expression. -/
inductive Fault.Cause where
  | trailingEscape
  | emptyExpression
  | slotInsideBrackets
  | unbalancedClosing
  | mismatchedClosing
  | unclosedOptional
  | unclosedGroup
  | emptyAlternative
  | emptyBrackets
  | misplacedSeparator
  | danglingNegation
  | emptyAssertion
  | unclosedAssertion
  | emptyArgument
  | unclosedArgument
  | repeatedAssertion
  | malformedArgument
deriving DecidableEq, Repr

/-- The wording of each cause. -/
def Fault.Cause.message : Fault.Cause → String
  | .trailingEscape => "trailing escape character"
  | .emptyExpression => "expression is empty"
  | .slotInsideBrackets =>
    "arguments and assertions are not allowed inside brackets or negations"
  | .unbalancedClosing => "unbalanced closing symbol"
  | .mismatchedClosing => "mismatched closing symbol"
  | .unclosedOptional => "unclosed optional"
  | .unclosedGroup => "unclosed group"
  | .emptyAlternative => "empty choice alternative"
  | .emptyBrackets => "empty brackets"
  | .misplacedSeparator => "choice separator must sit between two words or inside brackets"
  | .danglingNegation => "negation must be followed by a word or a [group]"
  | .emptyAssertion => "empty assertion"
  | .unclosedAssertion => "unclosed assertion"
  | .emptyArgument => "empty argument"
  | .unclosedArgument => "unclosed argument"
  | .repeatedAssertion => "only one assertion is allowed per expression"
  | .malformedArgument => "malformed argument, expected `name:type`"

/-- A cause with its place in the expression. -/
structure Fault where
  cause : Fault.Cause
  /-- Byte offset, from zero, at which the trouble starts. -/
  position : Nat
  /-- The piece of the expression that is to blame. -/
  fragment : Option Text
deriving DecidableEq, Repr

namespace Fault

/-- A fault is lexical when the expression could not even be cut into tokens. -/
def isLexical (f : Fault) : Bool := f.cause == .trailingEscape

/-- The full wording: the cause, the piece to blame and the offset. -/
def message (f : Fault) : String :=
  let place := " at byte " ++ toString f.position ++ " (zero-based)"
  match f.fragment with
  | some piece => f.cause.message ++ " near `" ++ Text.asString piece ++ "`" ++ place
  | none => f.cause.message ++ place

end Fault
end StepMatch
