import StepMatch.Proofs.Expression.Slots
import StepMatch.Proofs.Matcher.Splitting
import StepMatch.Proofs.Pattern.Merging
import StepMatch.Proofs.Regex.Traces
import StepMatch.Proofs.Assertion.Standard

/-!
# Every expression has a regex

The regex of a matcher is text put together from the texts of its pieces. Those of patterns add a row of
pieces without names wherever they stand, and those of slots are bodies of a group of their own. So the
whole reads as a regex in every locale, with one group for each slot, and what a search finds in the group
of a slot is a text that the slot takes.
-/

namespace StepMatch

open Regex (IsSource WritesBody Remembers Adds isLocalText)

variable {l : Locale}

/-- The name of a field and its language, if it has a name. -/
def Regex.Field.slot? (f : Regex.Field) : Option (Text × TextLanguage) := f.name.map (·, f.language)

/-- In the locale, each factory has phrases, and their regex looks at nothing but what it takes, fixes no
choice and names nothing. -/
def AssertionFactories.HavePhrases (factories : AssertionFactories) (l : Locale) : Prop :=
  ∀ name factory, factories.find name = .ok factory →
    ∃ phrases, factory.phrases l = .ok phrases ∧ isLocalText phrases.regex

theorem AssertionFactories.havePhrases_standard (l : Locale) : HavePhrases standard l :=
  fun _ _ found => by
    obtain ⟨phrases, made, loc, -⟩ := (resolves_standard found l).1
    exact ⟨phrases, made, loc⟩

namespace Piece

/-- The piece has a regex in the locale: for a slot the body of a group with what the slot takes, for
a pattern a row of pieces. -/
def IsSlotted (l : Locale) (p : Piece) : Prop := ∃ own, p.body l = .ok own ∧
  if p.isSlot then WritesBody false .extended own (p.language l) else ∃ items, IsSource own items

variable {pieces : List Piece} {types : DataTypes} {factories : AssertionFactories}

theorem IsReadable.isSlotted {piece : Piece} (h : piece.IsReadable l) (slot : piece.isSlot = true) :
    piece.IsSlotted l := by
  obtain ⟨own, e, takes⟩ := h
  rw [slot, if_pos rfl] at takes
  exact ⟨own, e, by rwa [slot, if_pos rfl]⟩

/-- What a fragment is bound to has a regex. -/
theorem isSlotted_of_bind (typesLocal : types.AreLocal l) (phrased : factories.HavePhrases l)
    {f : Fragment} {piece : Piece} (made : f.IsMade) (h : bind types factories f = .ok piece) :
    piece.IsSlotted l := by
  cases f with
  | pattern p =>
    cases h
    exact ⟨p.regex, rfl, (Pattern.isJoinable_of_isMade made).units.source⟩
  | argument slot =>
    rw [bind] at h
    split at h
    · rename_i type found
      cases h
      exact (isReadable_argument (typesLocal _ _ found)).isSlotted rfl
    · cases h
  | assertion slot =>
    rw [bind] at h
    split at h
    · rename_i factory found
      cases h
      obtain ⟨phrases, e, loc⟩ := phrased _ _ found
      exact (isReadable_assertion e loc).isSlotted rfl
    · cases h

/-- The regexes of pieces together name the groups of the slots, and nothing else. -/
theorem remembers_concatRegex (each : ∀ piece ∈ pieces, piece.IsSlotted l) (slot : Nat) :
    ∃ body, concatRegex l slot pieces = .ok body ∧
      Adds .extended body (Remembers · ((fields l slot pieces).filterMap Regex.Field.slot?)) := by
  induction pieces generalizing slot with
  | nil => exact ⟨[], rfl, .nil .nil⟩
  | cons piece pieces ih =>
    obtain ⟨⟨own, e, adds⟩, each⟩ := List.forall_mem_cons.1 each
    cases slots : piece.isSlot with
    | true =>
      obtain ⟨rest, e', later⟩ := ih each (slot + 1)
      rw [slots, if_pos rfl] at adds
      refine ⟨Regex.namedGroup (slotGroup slot) own ++ rest, ?_, ?_⟩
      · rw [concatRegex, e, slots, e']
        rfl
      · have named := (adds.named (slotGroup_ne_nil slot) (allowsInName_slotGroup slot)).adds
        refine (named.append later).mono fun items => ?_
        rintro ⟨first, more, own, rest, rfl⟩
        rw [fields, slots, if_pos rfl]
        exact (Remembers.named own).append rest
    | false =>
      obtain ⟨rest, e', later⟩ := ih each slot
      rw [slots, if_neg Bool.false_ne_true] at adds
      obtain ⟨row, source⟩ := adds
      refine ⟨own ++ rest, ?_, ?_⟩
      · rw [concatRegex, e, slots, e']
        rfl
      · refine (source.1.append later).mono fun items => ?_
        rintro ⟨first, more, rfl, rest, rfl⟩
        rw [fields, slots, if_neg Bool.false_ne_true]
        exact (Remembers.unnamed fun i hi => (source.2.sound i hi).unnamed).append rest

theorem map_fst_slot? (fs : List Regex.Field) :
    (fs.filterMap Regex.Field.slot?).map Prod.fst = fs.filterMap Regex.Field.name := by
  rw [List.map_filterMap]
  congr
  funext ⟨name, L⟩
  cases name <;> rfl

/-- The texts of the fields that are slots are such as the slots take. -/
theorem takes_of_fields (slot : Nat) {ws : List Text}
    (h : List.Forall₂ (fun slot w => w ∈ slot.2) ((fields l slot pieces).filterMap Regex.Field.slot?) ws) :
    List.Forall₂ (Takes l) (pieces.filter isSlot) ws := by
  induction pieces generalizing slot ws with
  | nil =>
    cases h
    exact .nil
  | cons piece pieces ih =>
    rw [fields] at h
    split at h
    · rename_i slots
      rw [List.filter_cons_of_pos slots]
      cases h with
      | cons own rest => exact .cons own (ih (slot + 1) rest)
    · rename_i slots
      rw [List.filter_cons_of_neg slots]
      exact ih slot h

end Piece

namespace Matcher

variable {m : Matcher}

/-- A matcher of pieces with regexes has a regex itself, with one group for each slot. What a search finds
is, for each slot, a text that the slot takes. -/
theorem exists_program (each : ∀ piece ∈ m.pieces, piece.IsSlotted l) :
    ∃ p, m.program l = .ok p ∧
      p.regex.groupNames = (List.range m.slots.length).map Piece.slotGroup ∧
      ∀ sentence o, p.regex.search sentence = some o →
        List.Forall₂ (Piece.Takes l) m.slots (capturedTexts o m.slots.length) := by
  obtain ⟨body, e, adds⟩ := Piece.remembers_concatRegex each 0
  have names : ((Piece.fields l 0 m.pieces).filterMap Regex.Field.slot?).map Prod.fst =
      (List.range m.slots.length).map Piece.slotGroup := by
    rw [Piece.map_fst_slot?, Piece.names_fields, List.range_eq_range']
    rfl
  have nodup : ((List.range m.slots.length).map Piece.slotGroup).Nodup :=
    List.Nodup.map Piece.slotGroup_injective List.nodup_range
  obtain ⟨items, read, remembers⟩ := adds.read?_anchored fun items remembers => by
    rw [remembers.names, names]
    exact nodup
  refine ⟨⟨Regex.anchored body, Regex.between items⟩, ?_, ?_, fun sentence o found => ?_⟩
  · rw [program, e]
    dsimp only [Except.bind]
    rw [read]
  · rw [Regex.groupNames_between, remembers.names, names]
  · obtain ⟨ws, texts, groups⟩ := remembers.exists_texts (names ▸ nodup) found
    have takes := Piece.takes_of_fields 0 texts
    have length : m.slots.length = ws.length := takes.length_eq
    have captured : capturedTexts o ws.length = ws := capturedTexts_eq fun i hi =>
      ⟨ws[i], List.getElem?_eq_getElem hi, groups i _ _ (by
        rw [names, List.getElem?_map, List.getElem?_range (length ▸ hi)]
        rfl) (List.getElem?_eq_getElem hi)⟩
    rw [length, captured]
    exact takes

end Matcher

namespace Fragment

/-- Whether the fragment names something that is registered, if it is a slot. -/
def isKnown (types : DataTypes) (factories : AssertionFactories) : Fragment → Bool
  | .pattern _ => true
  | .argument slot => (types.get? slot.typeName).isSome
  | .assertion slot => (factories.get? slot.name).isSome

/-- Whether the fragment is a slot. -/
def isSlot : Fragment → Bool
  | .pattern _ => false
  | .argument _ | .assertion _ => true

variable {types : DataTypes} {factories : AssertionFactories}

theorem exists_bind {f : Fragment} (known : f.isKnown types factories) :
    ∃ piece, Piece.bind types factories f = .ok piece ∧ piece.isSlot = f.isSlot := by
  cases f with
  | pattern p => exact ⟨_, rfl, rfl⟩
  | argument slot =>
    obtain ⟨type, found⟩ := Option.isSome_iff_exists.1 known
    exact ⟨.argument slot.name type, by simp [Piece.bind, Registry.find, found], rfl⟩
  | assertion slot =>
    obtain ⟨factory, found⟩ := Option.isSome_iff_exists.1 known
    exact ⟨.assertion factory, by simp [Piece.bind, Registry.find, found], rfl⟩

end Fragment

namespace Matcher

variable {m : Matcher} {types : DataTypes} {factories : AssertionFactories} {expression : Text}
  {n : Node} {fragments : List Fragment}

/-- What an expression is bound to has regexes. -/
theorem isSlotted_of_ofExpression (typesLocal : types.AreLocal l) (phrased : factories.HavePhrases l)
    (made : ofExpression types factories expression = .ok m) :
    ∀ piece ∈ m.pieces, piece.IsSlotted l := by
  obtain ⟨n, fragments, parsed, found, binds⟩ := exists_fragments made
  have each := Fragment.isMade_of_ofNode (Node.formed_of_parse parsed) found
  exact Piece.forall_of_binds binds each fun f piece => Piece.isSlotted_of_bind typesLocal phrased

/-- An expression whose slots are all known can be bound, and has as many slots. -/
theorem exists_ofExpression (parsed : Node.parse expression = .ok n)
    (found : Fragment.ofNode n = .ok fragments) (known : ∀ f ∈ fragments, f.isKnown types factories) :
    ∃ m, ofExpression types factories expression = .ok m ∧
      m.slots.length = fragments.countP Fragment.isSlot := by
  obtain ⟨pieces, bound, same⟩ := exists_mapM fun f hf => Fragment.exists_bind (known f hf)
  refine ⟨⟨expression, pieces, .ofNode n⟩, by rw [ofExpression, parsed]; simp only [found, bound]; rfl, ?_⟩
  rw [slots, ← List.countP_eq_length_filter]
  clear known found bound parsed
  induction same with
  | nil => rfl
  | cons own _ ih => rw [List.countP_cons, List.countP_cons, ih, own]

/-- What the parser makes of an expression always has a regex. Each tree without slots in it makes a
pattern, and patterns that come of trees, however they are merged, are texts of rows: their brackets
match, they stand for the same pieces wherever they are put, repeat nothing that may not be repeated, and
one after the other stand for one row after the other. If the slots of the expression name what is
standard, then it compiles, whatever the default locale, and has a regex in every locale, with one group
for each slot, named by its index. -/
theorem exists_compile_of_parse (parsed : Node.parse expression = .ok n) :
    (∀ tree : Node, tree.Within n → tree.containsSlot = false →
      ∃ p, Pattern.ofNode tree = .ok p ∧ p.IsMade) ∧
    (∀ p : Pattern, p.IsMade → Pattern.Balanced p.regex ∧ ∃ rs, Regex.WritesRow p.regex rs) ∧
    (∀ t u rs ss, Regex.WritesRow t rs → Regex.WritesRow u ss →
      Regex.WritesRow (t ++ u) (rs ++ ss)) ∧
    ∃ fragments, Fragment.ofNode n = .ok fragments ∧
      ((∀ f ∈ fragments, f.isKnown .standard .standard) → ∃ m,
        (∀ default, compile .standard .standard default expression = .ok m) ∧
        m.slots.length = fragments.countP Fragment.isSlot ∧
        ∀ l, ∃ program, m.program l = .ok program ∧
          program.regex.groupNames = (List.range m.slots.length).map Piece.slotGroup) := by
  have formed := Node.formed_of_parse parsed
  refine ⟨fun tree within slotFree => ?_, fun p made => ?_, fun _ _ _ _ => Regex.WritesRow.append, ?_⟩
  · obtain ⟨p, made⟩ := Pattern.exists_ofNode (formed.within within) slotFree
    exact ⟨p, made, .ofNode (formed.within within) made⟩
  · have units := (Pattern.isJoinable_of_isMade made).units
    obtain ⟨items, source⟩ := units.source
    exact ⟨units.balanced, _, source.writesRow⟩
  · obtain ⟨last, run⟩ := Fragment.exists_foldlM (Node.isWellFormed_of_parse parsed).outer []
    refine ⟨last.reverse, by rw [Fragment.ofNode, run]; rfl, fun known => ?_⟩
    obtain ⟨m, made, slots⟩ := exists_ofExpression parsed (by rw [Fragment.ofNode, run]; rfl) known
    have programs (l : Locale) := exists_program (isSlotted_of_ofExpression
      (DataTypes.areLocal_standard l) (AssertionFactories.havePhrases_standard l) made)
    refine ⟨m, fun default => compile_of_ofExpression made ?_, slots, fun l => ?_⟩
    · obtain ⟨program, built, -⟩ := programs default
      rw [built]
      rfl
    · obtain ⟨program, built, names, -⟩ := programs l
      exact ⟨program, built, names⟩

/-- With slots of both kinds, an optional part and a negated phrase. -/
theorem exists_compile_of_order : ∃ n m,
    Node.parse "add {n:integer} (big) ^[bad ones] {{text-assertion}}".toList = .ok n ∧
      (∀ default, compile .standard .standard default
        "add {n:integer} (big) ^[bad ones] {{text-assertion}}".toList = .ok m) ∧
      ∀ l, ∃ program, m.program l = .ok program ∧
        program.regex.groupNames = (List.range m.slots.length).map Piece.slotGroup := by
  obtain ⟨n, parsed, known⟩ := exists_ok (p := fun n => (Fragment.ofNode n).toOption.any fun fs =>
      fs.all (Fragment.isKnown .standard .standard))
    (x := Node.parse "add {n:integer} (big) ^[bad ones] {{text-assertion}}".toList) (by decide +kernel)
  obtain ⟨-, -, -, fragments, found, compiles⟩ := exists_compile_of_parse parsed
  rw [found] at known
  obtain ⟨m, compiled, -, programs⟩ := compiles (List.all_eq_true.1 known)
  exact ⟨n, m, parsed, compiled, programs⟩

end Matcher
end StepMatch
