import StepMatch.Object.Stock
import StepMatch.Matcher.Match

/-!
# Matchers as objects

The pieces of a matcher that is in use are bound to objects, which they share with the registries
and with other matchers. The regex for each locale is kept by the matcher itself.
-/

namespace StepMatch

/-- A piece of an expression, bound to objects. -/
inductive BoundPiece where
  | pattern (p : Pattern)
  | argument (binding : String) (type : TypeObject)
  | assertion (factory : FactoryObject)

namespace BoundPiece

/-- The piece, bound to what the objects are. -/
def base : BoundPiece → Piece
  | .pattern p => .pattern p
  | .argument binding type => .argument binding type.base
  | .assertion factory => .assertion factory.base

/-- Whether the piece takes something from the sentence. -/
def isSlot : BoundPiece → Bool
  | .pattern _ => false
  | _ => true

/-- Binds a fragment of an expression. -/
def bind (types : Registry TypeObject) (factories : Registry FactoryObject) :
    Fragment → Except ExpressionFault BoundPiece
  | .pattern p => .ok (.pattern p)
  | .argument slot =>
    match types.find slot.typeName with
    | .ok type => .ok (.argument slot.name type)
    | .error unknown => .error (.unknownDataType unknown slot.position)
  | .assertion slot =>
    match factories.find slot.name with
    | .ok factory => .ok (.assertion factory)
    | .error unknown => .error (.unknownAssertion unknown slot.position)

/-- The regex of what a slot takes; the regex of a pattern itself. -/
def body (l : Locale) : BoundPiece → Keeping MatchFault Text
  | .pattern p => return p.regex
  | .argument _ type => do
    let regex ← type.regex l
    return Regex.alternatives [Piece.variableRegex, Regex.grouped regex]
  | .assertion factory => do
    let phrases ← (factory.phrases l).mapFault .assertion
    return Regex.grouped phrases.regex

/-- The regex of pieces in order; `slot` is the number of slots before them. -/
def concatRegex (l : Locale) (slot : Nat) : List BoundPiece → Keeping MatchFault Text
  | [] => return []
  | piece :: pieces => do
    let own ← piece.body l
    if piece.isSlot then
      return Regex.namedGroup (Piece.slotGroup slot) own ++ (← concatRegex l (slot + 1) pieces)
    else
      return own ++ (← concatRegex l slot pieces)

/-- The argument that a text writes. -/
def readArgument (binding : String) (type : TypeObject) (l : Locale) (t : Text) :
    Keeping MatchFault Argument :=
  match Argument.variableName? t with
  | some name => return .variable name
  | none => do
    let v ← (type.parse l t).mapFault (.argument binding)
    return .literal v

/-- Reads what stands in the next slot. -/
def readSlot (l : Locale) (m : Match) : BoundPiece × Text → Keeping MatchFault Match
  | (.pattern _, _) => return m
  | (.argument binding type, t) => do
    let a ← readArgument binding type l t
    return { m with arguments := m.arguments ++ [(binding, a)] }
  | (.assertion factory, t) => do
    let a ← (factory.resolve l t).mapFault .assertion
    return { m with assertion := some a }

end BoundPiece

/-- A matcher with the regexes that were built for it so far. -/
structure HeldMatcher where
  expression : Text
  pieces : List BoundPiece
  specificity : Specificity
  programs : LocaleMemo Program := {}

namespace HeldMatcher

/-- The matcher, bound to what the objects are. -/
def base (m : HeldMatcher) : Matcher := ⟨m.expression, m.pieces.map (·.base), m.specificity⟩

/-- Binds the slots of an expression. -/
def ofExpression (types : Registry TypeObject) (factories : Registry FactoryObject)
    (expression : Text) : Except ExpressionFault HeldMatcher :=
  match Node.parse expression with
  | .error fault => .error (.malformed fault)
  | .ok n =>
    match Fragment.ofNode n with
    | .error fault => .error (.malformed fault)
    | .ok fragments =>
      (fragments.mapM (BoundPiece.bind types factories)).map fun pieces =>
        { expression := expression, pieces := pieces, specificity := .ofNode n }

/-- The regex of the matcher in a locale, built anew. -/
def build (m : HeldMatcher) (l : Locale) : Keeping MatchFault Program := do
  let body ← BoundPiece.concatRegex l 0 m.pieces
  let source := Regex.anchored body
  match Regex.read? .extended source with
  | some r => return ⟨source, r⟩
  | none => throw (.regex l)

/-- The regex of the matcher in a locale, and the matcher that keeps it. -/
def program (m : HeldMatcher) (l : Locale) : Keeping MatchFault (Program × HeldMatcher) :=
  match m.programs.get? l with
  | some p => return (p, m)
  | none => do
    let (p, programs) := m.programs.publish l (← m.build l)
    return (p, { m with programs := programs })

/-- The pieces that take something from a sentence, in order. -/
def slots (m : HeldMatcher) : List BoundPiece := m.pieces.filter BoundPiece.isSlot

/-- Matches a sentence with the regex of the matcher in a locale. -/
def matchWith (m : HeldMatcher) (p : Program) (l : Locale) (sentence : Text) :
    Keeping MatchFault (Option Match) :=
  match p.regex.search sentence with
  | none => return none
  | some o => do
    let texts := Matcher.capturedTexts o m.slots.length
    return some (← (m.slots.zip texts).foldlM (BoundPiece.readSlot l) {})

end HeldMatcher
end StepMatch
