import StepMatch.Proofs.Matcher.Faults
import StepMatch.Proofs.Regex.Readable

/-!
# Binding slots by name

Each slot of an expression asks for something by name, an argument slot for a data type and an assertion
slot for a factory. What is registered last under a name answers to it. If all slots are answered, the
expression compiles, unless the regex of a custom type or factory is invalid: regexes that are valid by
themselves are valid together. Otherwise the leftmost slot without an answer is to blame, at the byte
offset of its opening brace.
-/

namespace StepMatch

/-! ### What is registered -/

/-- Names in ascending order, exactly those of the given things. -/
def ListsNames {α : Type} [Named α] (known : List String) (as : List α) : Prop :=
  known.Pairwise (· < ·) ∧ ∀ name, name ∈ known ↔ ∃ a ∈ as, Named.name a = name

/-- The last one of several things under a name. -/
def lastNamed? {α : Type} [Named α] (as : List α) (name : String) : Option α :=
  as.reverse.find? fun a => Named.name a == name

namespace Registry

variable {α : Type} [Named α] {as : List α} {name : String} {a : α}

end Registry

/-! ### What slots ask for -/

/-- What a slot asks for by name. -/
inductive Request where
  /-- A data type, for a value that is reported under the name of the slot. -/
  | value (binding typeName : String)
  /-- A factory. -/
  | assertion (name : String)

/-- The name that is asked for. -/
def Request.name : Request → String
  | .value _ name => name
  | .assertion name => name

/-- Whether one of the things that have been registered answers to the request. -/
def Request.IsAnswered (types : List DataType) (factories : List AssertionFactory) : Request → Prop
  | .value _ name => ∃ type ∈ types, Named.name type = name
  | .assertion name => ∃ factory ∈ factories, Named.name factory = name

namespace Node

/-- What the text of a slot asks for: the name of a data type after the first colon or, without one, as
all of the text, and the name of a factory as all of the text. -/
inductive AsksFor : Node → Request → Prop where
  | typed {name typeName : Text} {position : Nat} (first : ':' ∉ name) :
    AsksFor (.argument (name ++ ':' :: typeName) position)
      (.value name.trim.asString typeName.trim.asString)
  | bare {body : Text} {position : Nat} (noColon : ':' ∉ body) :
    AsksFor (.argument body position) (.value body.trim.asString body.trim.asString)
  | assertion {body : Text} {position : Nat} :
    AsksFor (.assertion body position) (.assertion body.asString)

/-- Something answers to what the slot asks for. -/
def IsAnswered (types : List DataType) (factories : List AssertionFactory) (slot : Node) : Prop :=
  ∃ request, slot.AsksFor request ∧ request.IsAnswered types factories

/-- A slot, as a fragment. -/
def fragment? : Node → Option Fragment
  | .argument t position => some (.argument (.ofText t position))
  | .assertion t position => some (.assertion ⟨t.asString, position⟩)
  | _ => none

end Node

namespace Fragment

theorem slots_of_push {before after : List Fragment} {n : Node} (other : n.isSlot = false)
    (e : push before n = .ok after) :
    (after.filter isSlot).map some = (before.filter isSlot).map some := by
  have merged : ∀ p, ((pushPattern p before).filter isSlot).map some =
      (before.filter isSlot).map some := by
    intro p
    unfold pushPattern
    split <;> rfl
  unfold push at e
  split at e
  · cases other
  · cases other
  · obtain ⟨p, -, rfl⟩ := ok_of_map e
    exact merged p

/-- The slots of fragments are those of the parts that these were made of. -/
theorem slots_of_foldlM {ns : List Node} {before after : List Fragment}
    (e : ns.foldlM push before = .ok after) : (after.filter isSlot).map some =
      ((ns.filter Node.isSlot).map Node.fragment?).reverse ++ (before.filter isSlot).map some := by
  induction ns generalizing before with
  | nil =>
    cases e
    rfl
  | cons n ns ih =>
    rw [List.foldlM_cons] at e
    obtain ⟨next, pushed, e⟩ := ok_of_bind e
    rw [ih e]
    by_cases slot : n.isSlot = true
    · cases n with
      | argument | assertion =>
        cases pushed
        rw [List.filter_cons_of_pos slot, List.map_cons, List.reverse_cons, List.append_assoc]
        rfl
      | _ => cases slot
    · rw [slots_of_push (by simpa using slot) pushed, List.filter_cons_of_neg slot]

/-- The slots of an expression, as nodes of its tree and as fragments. -/
theorem slots_of_ofNode {n : Node} {fragments : List Fragment} (found : ofNode n = .ok fragments) :
    (n.parts.filter Node.isSlot).map Node.fragment? = (fragments.filter isSlot).map some := by
  obtain ⟨after, run, rfl⟩ := ok_of_map found
  have slots := slots_of_foldlM run
  rw [List.filter_reverse, List.map_reverse, slots]
  simp

end Fragment

/-! ### What slots are bound to -/

/-- The piece is the slot, bound to what has been registered last under the name that it asks for. -/
inductive Piece.Binds (types : List DataType) (factories : List AssertionFactory) :
    Node → Piece → Prop where
  | argument {slot : Node} {binding name : String} {type : DataType}
    (asks : slot.AsksFor (.value binding name)) (last : lastNamed? types name = some type) :
    Binds types factories slot (.argument binding type)
  | assertion {slot : Node} {name : String} {factory : AssertionFactory}
    (asks : slot.AsksFor (.assertion name)) (last : lastNamed? factories name = some factory) :
    Binds types factories slot (.assertion factory)

/-- The fault says that nothing answers to what the slot asks for. It has the name, the names that are
registered for things of the kind, and the place of the slot. -/
inductive ExpressionFault.Blames (types : List DataType) (factories : List AssertionFactory) :
    ExpressionFault → Node → Prop where
  | dataType {slot : Node} {binding : String} {unknown : UnknownName} {position : Nat}
    (asks : slot.AsksFor (.value binding unknown.name)) (known : ListsNames unknown.known types)
    (stands : slot.position? = some position) :
    Blames types factories (.unknownDataType unknown position) slot
  | assertion {slot : Node} {unknown : UnknownName} {position : Nat}
    (asks : slot.AsksFor (.assertion unknown.name)) (known : ListsNames unknown.known factories)
    (stands : slot.position? = some position) :
    Blames types factories (.unknownAssertion unknown position) slot

section Slots

variable {types : List DataType} {factories : List AssertionFactory} {slot : Node} {f : Fragment}
  {piece : Piece} {fault : ExpressionFault}

end Slots

/-! ### Whether the regexes fit together -/

namespace Piece

open Regex (AddsBody)

variable {l : Locale} {piece : Piece} {pieces : List Piece}

/-- The slot has no regex in the locale: that of its data type is none, or its factory has no phrases
or none with a regex. -/
def IsInvalid (l : Locale) : Piece → Prop
  | .pattern _ => False
  | .argument _ type => Regex.read? .extended (type.regex l) = none
  | .assertion factory =>
    ∀ phrases, factory.phrases l = .ok phrases → Regex.read? .extended phrases.regex = none

/-- The piece has a regex in the locale that can be read after others, or for a slot in a group. -/
def Joins (l : Locale) (p : Piece) : Prop := ∃ own, p.body l = .ok own ∧
  if p.isSlot then ∃ Q, AddsBody .extended own Q else Regex.Joins own

end Piece

namespace Matcher

variable {l default : Locale} {m : Matcher} {expression : Text} {n : Node} {fault : ExpressionFault}

/-- How the slots of an expression are resolved when it is compiled against what has been registered: they
are bound to what answers to them, or the leftmost one without an answer is to blame. -/
structure Resolves (types : List DataType) (factories : List AssertionFactory) (default : Locale)
    (slots : List Node) (compiled : Except ExpressionFault Matcher) : Prop where
  bound : ∀ m, compiled = .ok m → List.Forall₂ (Piece.Binds types factories) slots m.slots
  unmatchable : (∀ slot ∈ slots, slot.IsAnswered types factories) → ∀ fault, compiled = .error fault →
    ∃ cause, fault = .unmatchable default cause ∧ ∃ slot ∈ slots, ∃ piece,
      Piece.Binds types factories slot piece ∧ piece.IsInvalid default ∧ ¬ piece.IsStandard
  unknown : (¬ ∀ slot ∈ slots, slot.IsAnswered types factories) → ∃ before slot after fault,
    slots = before ++ slot :: after ∧ (∀ earlier ∈ before, earlier.IsAnswered types factories) ∧
      ¬ slot.IsAnswered types factories ∧ compiled = .error fault ∧
      fault.Blames types factories slot ∧ fault.position? = slot.position? ∧
      ∃ request, slot.AsksFor request ∧ fault.unknownName? = some request.name

variable {types : List DataType} {factories : List AssertionFactory} {slots : List Node}
  {fragments : List Fragment}

end Matcher

end StepMatch
