import StepMatch.Pattern.Fragment
import StepMatch.Expression.Specificity
import StepMatch.Assertion.Standard

/-!
# Matchers

An expression whose slots are bound to data types and assertion factories. Names are looked up
once: what is registered later does not change a matcher.
-/

namespace StepMatch

/-- A piece of an expression, bound. -/
inductive Piece where
  | pattern (p : Pattern)
  | argument (binding : String) (type : DataType)
  | assertion (factory : AssertionFactory)

/-- Why a sentence cannot be matched. -/
inductive MatchFault where
  /-- What stands in an argument slot cannot be read. -/
  | argument (binding : String) (fault : ReadFault)
  /-- What stands in the assertion slot makes no assertion. -/
  | assertion (fault : AssertionFault)
  /-- The pieces together make no regex in the locale. -/
  | regex (locale : Locale)
deriving DecidableEq, Repr

/-- The wording of a fault. -/
def MatchFault.message : MatchFault → String
  | .argument binding fault => "argument `" ++ binding ++ "`: " ++ fault.message
  | .assertion fault => fault.message
  | .regex locale => "cannot build the expression regex for " ++ locale.tag

/-- Why an expression makes no matcher. -/
inductive ExpressionFault where
  /-- The expression cannot be read. -/
  | malformed (fault : Fault)
  /-- An argument slot names a data type that is not registered. -/
  | unknownDataType (unknown : UnknownName) (position : Nat)
  /-- The assertion slot names a factory that is not registered. -/
  | unknownAssertion (unknown : UnknownName) (position : Nat)
  /-- No sentence can be matched in the default locale. -/
  | unmatchable (locale : Locale) (fault : MatchFault)
deriving DecidableEq, Repr

namespace ExpressionFault

/-- The wording of a fault. -/
def message : ExpressionFault → String
  | .malformed fault => fault.message
  | .unknownDataType unknown position =>
    unknown.dataTypeMessage ++ " (argument slot at byte " ++ toString position ++ ")"
  | .unknownAssertion unknown position =>
    unknown.assertionMessage ++ " (assertion slot at byte " ++ toString position ++ ")"
  | .unmatchable locale fault =>
    "expression cannot be matched in locale " ++ locale.tag ++ ": " ++ fault.message

/-- The byte offset of the trouble, when it has one. -/
def position? : ExpressionFault → Option Nat
  | .malformed fault => some fault.position
  | .unknownDataType _ position => some position
  | .unknownAssertion _ position => some position
  | .unmatchable .. => none

/-- The name that is not registered, when that is the trouble. -/
def unknownName? : ExpressionFault → Option String
  | .unknownDataType unknown _ => some unknown.name
  | .unknownAssertion unknown _ => some unknown.name
  | _ => none

end ExpressionFault

namespace Piece

/-- Whether the piece takes something from the sentence. -/
def isSlot : Piece → Bool
  | .pattern _ => false
  | _ => true

/-- Binds a fragment of an expression. -/
def bind (types : DataTypes) (factories : AssertionFactories) :
    Fragment → Except ExpressionFault Piece
  | .pattern p => .ok (.pattern p)
  | .argument slot =>
    match types.find slot.typeName with
    | .ok type => .ok (.argument slot.name type)
    | .error unknown => .error (.unknownDataType unknown slot.position)
  | .assertion slot =>
    match factories.find slot.name with
    | .ok factory => .ok (.assertion factory)
    | .error unknown => .error (.unknownAssertion unknown slot.position)

/-- A reference to a variable, which any argument slot takes instead of a value. -/
def variableRegex : Text := "\\$\\\x7b[^\x7b\x7d\\s]+\\\x7d".toList

/-- The name of the group of a slot. -/
def slotGroup (index : Nat) : Text := "arg".toList ++ Regex.number index

/-- The regex of what a slot takes; the regex of a pattern itself. -/
def body (l : Locale) : Piece → Except MatchFault Text
  | .pattern p => .ok p.regex
  | .argument _ type =>
    .ok (Regex.alternatives [variableRegex, Regex.grouped (type.regex l)])
  | .assertion factory =>
    match factory.phrases l with
    | .ok phrases => .ok (Regex.grouped phrases.regex)
    | .error fault => .error (.assertion fault)

/-- The regex of pieces in order; `slot` is the number of slots before them. -/
def concatRegex (l : Locale) (slot : Nat) : List Piece → Except MatchFault Text
  | [] => .ok []
  | piece :: pieces => do
    let own ← piece.body l
    if piece.isSlot then
      return Regex.namedGroup (slotGroup slot) own ++ (← concatRegex l (slot + 1) pieces)
    else
      return own ++ (← concatRegex l slot pieces)

end Piece

/-- The regex of a matcher in one locale, as text and read. -/
structure Program where
  source : Text
  regex : Regex
deriving DecidableEq, Repr

/-- An expression that sentences can be matched against. -/
structure Matcher where
  expression : Text
  pieces : List Piece
  specificity : Specificity

namespace Matcher

/-- The regex of the matcher in a locale. -/
def program (m : Matcher) (l : Locale) : Except MatchFault Program :=
  (Piece.concatRegex l 0 m.pieces).bind fun body =>
    let source := Regex.anchored body
    match Regex.read? .extended source with
    | some r => .ok ⟨source, r⟩
    | none => .error (.regex l)

/-- Binds the slots of an expression. -/
def ofExpression (types : DataTypes) (factories : AssertionFactories) (expression : Text) :
    Except ExpressionFault Matcher :=
  match Node.parse expression with
  | .error fault => .error (.malformed fault)
  | .ok n =>
    match Fragment.ofNode n with
    | .error fault => .error (.malformed fault)
    | .ok fragments =>
      (fragments.mapM (Piece.bind types factories)).map fun pieces =>
        ⟨expression, pieces, .ofNode n⟩

/-- Binds the slots of an expression, and makes sure that sentences can be matched in the default
locale. -/
def compile (types : DataTypes) (factories : AssertionFactories) (l : Locale)
    (expression : Text) : Except ExpressionFault Matcher :=
  (ofExpression types factories expression).bind fun m =>
    match m.program l with
    | .ok _ => .ok m
    | .error fault => .error (.unmatchable l fault)

/-- The pieces that take something from a sentence, in order. -/
def slots (m : Matcher) : List Piece := m.pieces.filter Piece.isSlot

end Matcher
end StepMatch
