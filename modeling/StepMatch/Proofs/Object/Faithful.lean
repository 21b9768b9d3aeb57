import StepMatch.Proofs.Object.Keeping
import StepMatch.Proofs.Matcher.Pieces
import StepMatch.Object.Inventory
import StepMatch.Object.Matcher

/-!
# Objects give what they are

Each question to an object of a stock, and to a matcher whose pieces are bound to such objects, has
the answer of the data type, the factory or the matcher that the object is. One lemma for each
question; the lemmas follow the definitions.
-/

namespace StepMatch

open Keeping

variable {ε : Type} {s : Stock} {l : Locale}

namespace TypeObject

variable {o : TypeObject}

theorem gives_forms (known : o ∈ s.allTypes) (l : Locale) :
    Gives s (o.forms l : Keeping ε LocalForms) (.ok (o.base.formsIn l)) := by
  unfold forms
  cases numbered : o.number? with
  | none => exact gives_pure _
  | some n =>
    refine Gives.remember (gives_pure _) ?_ ?_
    · intro k agrees f kept
      rw [agrees.forms o known n numbered l f kept]
    · intro k agrees f built
      rw [← Except.ok.inj built]
      exact agrees.setForms known numbered

theorem gives_regex (known : o ∈ s.allTypes) (l : Locale) :
    Gives s (o.regex l : Keeping ε Text) (.ok (o.base.regex l)) :=
  (gives_forms known l).bind fun f => gives_pure f.regex

theorem gives_hints (known : o ∈ s.allTypes) (l : Locale) :
    Gives s (o.hints l : Keeping ε (List String)) (.ok (o.base.hints l)) :=
  (gives_forms known l).bind fun f => gives_pure f.hints

theorem gives_parse (known : o ∈ s.allTypes) (l : Locale) (t : Text) :
    Gives s (o.parse l t) (o.base.parse l t) := by
  refine (gives_forms known l).bind_ok ?_
  simp only [DataType.parse, DataType.formsIn]
  cases o.base.read l t with
  | ok v => exact gives_pure v
  | error reason =>
    let fault : ReadFault := ⟨o.base.name, l, t, o.base.hints l, reason⟩
    have thrown : Gives s (throw fault : Keeping ReadFault Value) (.error fault) := gives_throw fault
    exact (gives_hints known l).bind_ok thrown

end TypeObject

namespace FactoryObject

variable {o : FactoryObject}

theorem gives_phrases (known : o ∈ s.factories.toList) (l : Locale) :
    Gives s (o.phrases l) (o.base.phrases l) := by
  have fromRegex : Gives s
      (do PhraseSet.ofEntries (o.form.entries l) (← o.type.regex l) |> ofResult)
      (PhraseSet.ofEntries (o.form.entries l) (o.type.base.regex l)) :=
    (TypeObject.gives_regex (Stock.type_mem_allTypes known) l).bind fun regex =>
      gives_ofResult (PhraseSet.ofEntries (o.form.entries l) regex)
  have same : o.base.phrases l = PhraseSet.ofEntries (o.form.entries l) (o.type.base.regex l) := by
    unfold base FactoryForm.factory FactoryForm.entries
    cases o.form <;> rfl
  rw [← same] at fromRegex
  refine Gives.remember fromRegex ?_ ?_
  · intro k agrees p kept
    exact agrees.phrases o known l p kept
  · intro k agrees p built
    exact agrees.setPhrases known built

/-- The value of a phrase, as both kinds of factories read it. -/
theorem gives_value (known : o ∈ s.factories.toList) (l : Locale) (t : Text) :
    Gives s ((o.type.parse l t).mapFault AssertionFault.unreadable)
      ((o.type.base.parse l t).mapError .unreadable) :=
  (TypeObject.gives_parse (Stock.type_mem_allTypes known) l t).mapFault _

theorem gives_build (known : o ∈ s.factories.toList) (key : String) (value : Option Text)
    (l : Locale) : Gives s (o.build key value l) (o.base.build key value l) := by
  unfold build base FactoryForm.factory
  cases o.form with
  | comparing table =>
    cases named : Comparison.ofKey? key with
    | none =>
      simp only [AssertionFactory.comparing, AssertionFactory.buildComparison, named]
      exact gives_throw _
    | some c =>
      cases value with
      | none =>
        simp only [AssertionFactory.comparing, AssertionFactory.buildComparison, named]
        exact gives_throw _
      | some t =>
        have built := (gives_value known l t).bind fun expected =>
          gives_pure (c.assertion o.name expected)
        simp only [AssertionFactory.comparing, AssertionFactory.buildComparison, named]
        revert built
        cases o.type.base.parse l t with
        | ok v => exact id
        | error fault => exact id
  | checkingTexts =>
    have checked (reference : Option Value) : Gives s
        (do
          let c ← ofResult (AssertionFactory.textCheck o.name key
            (reference.map AssertionFactory.referenceOf))
          return c.assertion o.name)
        ((AssertionFactory.textCheck o.name key (reference.map AssertionFactory.referenceOf)).map
          fun c => c.assertion o.name) :=
      (gives_ofResult _).bind fun c => gives_pure (c.assertion o.name)
    simp only [AssertionFactory.checkingTexts, AssertionFactory.buildTextCheck]
    cases value with
    | none => exact checked none
    | some t =>
      have built := ((gives_value known l t).bind fun v => gives_pure (some v)).bind checked
      rw [Option.mapM_some, map_eq_pure_bind, Option.map_some]
      revert built
      cases o.type.base.parse l t with
      | ok v => exact id
      | error fault => exact id

theorem gives_resolve (known : o ∈ s.factories.toList) (l : Locale) (t : Text) :
    Gives s (o.resolve l t) (o.base.resolve l t) := by
  have phrases := gives_phrases known l
  unfold AssertionFactory.resolve
  cases made : o.base.phrases l with
  | error fault =>
    rw [made] at phrases
    exact phrases.bind_error
  | ok set =>
    rw [made] at phrases
    refine phrases.bind_ok ?_
    simp only [Except.bind]
    cases set.resolve? t with
    | none =>
      rw [show o.base.name = o.name from o.name_base]
      exact gives_throw _
    | some found => exact gives_build known found.1 found.2 l

end FactoryObject

theorem Stock.gives_inventory (s : Stock) (l : Locale) :
    Gives s (s.inventory l : Keeping ε Inventory)
      (.ok (.of s.baseTypes s.baseFactories l)) := by
  have type (o : TypeObject) (known : o ∈ s.types.toList) : Gives s
      (o.seenFrom l : Keeping ε DataTypeEntry) (.ok (o.base.seenFrom l)) :=
    have reached := Stock.mem_allTypes known
    (TypeObject.gives_regex reached l).bind fun _ =>
      (TypeObject.gives_hints reached l).bind fun _ => gives_pure _
  have factory (o : FactoryObject) (known : o ∈ s.factories.toList) : Gives s
      (o.seenFrom? l : Keeping ε (Option FactoryEntry)) (.ok (o.base.seenFrom? l)) := by
    refine (FactoryObject.gives_phrases known l).attempt.bind_ok ?_
    unfold AssertionFactory.seenFrom?
    rw [show o.base.name = o.name from o.name_base]
    cases o.base.phrases l <;> exact gives_pure _
  have all {α β : Type} (f : α → β) (as : List α) :
      as.mapM (fun a => (.ok (f a) : Except ε β)) = .ok (as.map f) :=
    List.mapM_pure
  have types := gives_mapM (s := s) type
  have factories := gives_mapM (s := s) factory
  rw [all] at types factories
  have both := types.bind fun types => factories.bind fun factories =>
    gives_pure (⟨l, types, factories.filterMap id⟩ : Inventory)
  have same : Inventory.of s.baseTypes s.baseFactories l = ⟨l,
      s.types.toList.map fun o => o.base.seenFrom l,
      (s.factories.toList.map fun o => o.base.seenFrom? l).filterMap id⟩ := by
    simp [Inventory.of, Stock.baseTypes, Stock.baseFactories, Registry.map, Registry.toList,
      List.filterMap_map, Function.comp_def]
  rw [same]
  exact both

namespace BoundPiece

/-- The objects of the piece are registered. -/
def IsWithin (s : Stock) : BoundPiece → Prop
  | .pattern _ => True
  | .argument _ type => type ∈ s.types.toList
  | .assertion factory => factory ∈ s.factories.toList

/-- Binding to objects is binding to what they are. -/
theorem bind_base (s : Stock) (fragment : Fragment) :
    (bind s.types s.factories fragment).map base
      = Piece.bind s.baseTypes s.baseFactories fragment := by
  cases fragment with
  | pattern p => rfl
  | argument slot =>
    simp only [bind, Piece.bind, Stock.baseTypes, Registry.find_map]
    cases s.types.find slot.typeName <;> rfl
  | assertion slot =>
    simp only [bind, Piece.bind, Stock.baseFactories, Registry.find_map]
    cases s.factories.find slot.name <;> rfl

theorem isWithin_of_bind {fragment : Fragment} {piece : BoundPiece}
    (h : bind s.types s.factories fragment = .ok piece) : piece.IsWithin s := by
  cases fragment with
  | pattern p =>
    cases h
    trivial
  | argument slot =>
    simp only [bind] at h
    split at h
    · rename_i found
      cases h
      exact Registry.mem_of_find found
    · cases h
  | assertion slot =>
    simp only [bind] at h
    split at h
    · rename_i found
      cases h
      exact Registry.mem_of_find found
    · cases h

theorem forall_isWithin {fragments : List Fragment} {pieces : List BoundPiece}
    (binds : List.Forall₂ (fun f piece => bind s.types s.factories f = .ok piece) fragments pieces) :
    ∀ piece ∈ pieces, piece.IsWithin s := by
  induction binds with
  | nil => simp
  | cons bound _ ih => exact List.forall_mem_cons.2 ⟨isWithin_of_bind bound, ih⟩

variable {piece : BoundPiece}

theorem gives_body (within : piece.IsWithin s) (l : Locale) :
    Gives s (piece.body l) (piece.base.body l) := by
  cases piece with
  | pattern p => exact gives_pure _
  | argument binding type =>
    have known := Stock.mem_allTypes within
    exact (TypeObject.gives_regex known l).bind fun _ => gives_pure _
  | assertion factory =>
    have built := ((FactoryObject.gives_phrases within l).mapFault MatchFault.assertion).bind
      fun phrases => gives_pure (Regex.grouped phrases.regex)
    revert built
    simp only [base, Piece.body]
    cases factory.base.phrases l with
    | ok phrases => exact id
    | error fault => exact id

theorem isSlot_base (piece : BoundPiece) : piece.base.isSlot = piece.isSlot := by
  cases piece <;> rfl

theorem gives_concatRegex {pieces : List BoundPiece} (within : ∀ piece ∈ pieces, piece.IsWithin s)
    (l : Locale) (slot : Nat) :
    Gives s (concatRegex l slot pieces) (Piece.concatRegex l slot (pieces.map base)) := by
  induction pieces generalizing slot with
  | nil => exact gives_pure _
  | cons piece pieces ih =>
    have rest := ih fun p hp => within p (List.mem_cons_of_mem piece hp)
    have joined (own : Text) : Gives s
        (if piece.isSlot then do
            return Regex.namedGroup (Piece.slotGroup slot) own
              ++ (← concatRegex l (slot + 1) pieces)
          else do return own ++ (← concatRegex l slot pieces))
        (if piece.isSlot then do
            return Regex.namedGroup (Piece.slotGroup slot) own
              ++ (← Piece.concatRegex l (slot + 1) (pieces.map base))
          else do return own ++ (← Piece.concatRegex l slot (pieces.map base))) := by
      split
      · exact (rest (slot + 1)).bind fun _ => gives_pure _
      · exact (rest slot).bind fun _ => gives_pure _
    rw [← isSlot_base piece] at joined
    simp only [concatRegex, List.map_cons, Piece.concatRegex, ← isSlot_base piece]
    exact (gives_body (within piece List.mem_cons_self) l).bind joined

theorem gives_readArgument {type : TypeObject} (known : type ∈ s.allTypes) (binding : String)
    (l : Locale) (t : Text) :
    Gives s (readArgument binding type l t) (Argument.read binding type.base l t) := by
  unfold readArgument Argument.read
  cases Argument.variableName? t with
  | some name => exact gives_pure _
  | none =>
    have read := ((TypeObject.gives_parse known l t).mapFault (MatchFault.argument binding)).bind
      fun v => gives_pure (Argument.literal v)
    revert read
    simp only
    cases type.base.parse l t with
    | ok v => exact id
    | error fault => exact id

theorem gives_readSlot (within : piece.IsWithin s) (l : Locale) (m : Match) (t : Text) :
    Gives s (readSlot l m (piece, t)) (Match.readSlot l m (piece.base, t)) := by
  cases piece with
  | pattern p => exact gives_pure _
  | argument binding type =>
    have known := Stock.mem_allTypes within
    have read := (gives_readArgument known binding l t).bind fun a =>
      gives_pure { m with arguments := m.arguments ++ [(binding, a)] }
    exact read
  | assertion factory =>
    have resolved := ((FactoryObject.gives_resolve within l t).mapFault MatchFault.assertion).bind
      fun a => gives_pure { m with assertion := some a }
    revert resolved
    simp only [base, Match.readSlot]
    cases factory.base.resolve l t with
    | ok a => exact id
    | error fault => exact id

end BoundPiece

namespace HeldMatcher

variable {m : HeldMatcher}

/-- The pieces are bound to registered objects, and each regex is what would be built anew. -/
structure IsSound (s : Stock) (m : HeldMatcher) : Prop where
  pieces : ∀ piece ∈ m.pieces, piece.IsWithin s
  programs : ∀ l p, m.programs.get? l = some p → m.base.program l = .ok p

/-- The matcher after a regex was published. -/
def keep (m : HeldMatcher) (l : Locale) (p : Program) : HeldMatcher :=
  { m with programs := (m.programs.publish l p).2 }

@[simp] theorem base_keep (m : HeldMatcher) (l : Locale) (p : Program) :
    (m.keep l p).base = m.base := rfl

theorem IsSound.keep (sound : m.IsSound s) {p : Program} (right : m.base.program l = .ok p) :
    (m.keep l p).IsSound s where
  pieces := sound.pieces
  programs := LocaleMemo.forall_kept_publish (P := fun l p => m.base.program l = .ok p)
    sound.programs right

theorem gives_build (sound : m.IsSound s) (l : Locale) :
    Gives s (m.build l) (m.base.program l) := by
  have joined := BoundPiece.gives_concatRegex sound.pieces l 0
  unfold Matcher.program base
  simp only
  cases made : Piece.concatRegex l 0 (m.pieces.map BoundPiece.base) with
  | error fault =>
    rw [made] at joined
    exact joined.bind_error
  | ok body =>
    rw [made] at joined
    refine joined.bind_ok ?_
    simp only [Except.bind]
    cases Regex.read? .extended (Regex.anchored body) with
    | some r => exact gives_pure _
    | none => exact gives_throw _

/-- The regex is the one that would be built anew, whether it was kept or not. -/
theorem gives_program (sound : m.IsSound s) (l : Locale) :
    Gives s (m.program l) ((m.base.program l).map fun p => (p, m.keep l p)) := by
  unfold program
  cases kept : m.programs.get? l with
  | some p =>
    have same : m.keep l p = m := by
      simp only [keep, LocaleMemo.publish_of_some kept]
    rw [sound.programs l p kept]
    simp only [Except.map, same]
    exact gives_pure (p, m)
  | none =>
    have published (p : Program) : Gives s
        (pure ((m.programs.publish l p).1, { m with programs := (m.programs.publish l p).2 })
          : Keeping MatchFault (Program × HeldMatcher))
        (.ok (p, m.keep l p)) := by
      rw [(LocaleMemo.publish_of_none kept p).1]
      exact gives_pure _
    have built := (gives_build sound l).bind published
    revert built
    cases m.base.program l with
    | ok p => exact id
    | error fault => exact id

theorem slots_base (m : HeldMatcher) : m.base.slots = m.slots.map BoundPiece.base := by
  have same : (Piece.isSlot ∘ BoundPiece.base) = BoundPiece.isSlot :=
    funext BoundPiece.isSlot_base
  simp only [Matcher.slots, base, slots, List.filter_map, same]

theorem gives_matchWith (sound : m.IsSound s) (p : Program) (l : Locale) (t : Text) :
    Gives s (m.matchWith p l t) (m.base.matchWith p l t) := by
  unfold matchWith Matcher.matchWith
  cases p.regex.search t with
  | none => exact gives_pure none
  | some o =>
    have slots : m.base.slots.length = m.slots.length := by simp [slots_base]
    have zipped : m.base.slots.zip (Matcher.capturedTexts o m.base.slots.length)
        = (m.slots.zip (Matcher.capturedTexts o m.slots.length)).map
          fun slot => (slot.1.base, slot.2) := by
      rw [slots, slots_base, List.zip_map_left]
      rfl
    have readNext (found : Match) (slot : BoundPiece × Text)
        (within : slot ∈ m.slots.zip (Matcher.capturedTexts o m.slots.length)) : Gives s
        (BoundPiece.readSlot l found slot) (Match.readSlot l found (slot.1.base, slot.2)) := by
      have ofMatcher := List.mem_filter.1 (List.of_mem_zip within).1
      exact BoundPiece.gives_readSlot (sound.pieces slot.1 ofMatcher.1) l found slot.2
    have readAll := gives_foldlM readNext {}
    have found := readAll.bind fun found => gives_pure (some found)
    simp only [zipped, List.foldlM_map]
    revert found
    cases (m.slots.zip (Matcher.capturedTexts o m.slots.length)).foldlM
        (fun found slot => Match.readSlot l found (slot.1.base, slot.2)) {} with
    | ok found => exact id
    | error fault => exact id

/-- Binding an expression to objects is binding it to what they are. -/
theorem ofExpression_base (s : Stock) (expression : Text) :
    (ofExpression s.types s.factories expression).map base
      = Matcher.ofExpression s.baseTypes s.baseFactories expression := by
  unfold ofExpression Matcher.ofExpression
  cases Node.parse expression with
  | error fault => rfl
  | ok n =>
    cases compiled : Fragment.ofNode n with
    | error fault => simp only [compiled, Except.map]
    | ok fragments =>
      have bound : (fragments.mapM (BoundPiece.bind s.types s.factories)).map
            (List.map BoundPiece.base)
          = fragments.mapM (Piece.bind s.baseTypes s.baseFactories) := by
        clear compiled
        induction fragments with
        | nil => rfl
        | cons fragment fragments ih =>
          simp only [List.mapM_cons, ← BoundPiece.bind_base, ← ih]
          cases BoundPiece.bind s.types s.factories fragment with
          | error fault => rfl
          | ok piece =>
            cases fragments.mapM (BoundPiece.bind s.types s.factories) <;> rfl
      simp only [compiled]
      rw [← bound]
      cases fragments.mapM (BoundPiece.bind s.types s.factories) <;> rfl

theorem expression_of_ofExpression {types : Registry TypeObject}
    {factories : Registry FactoryObject} {expression : Text}
    (h : ofExpression types factories expression = .ok m) : m.expression = expression := by
  unfold ofExpression at h
  split at h
  · cases h
  · split at h
    · cases h
    · rename_i fragments _
      cases bound : fragments.mapM (BoundPiece.bind types factories) <;>
        · rw [bound] at h
          cases h <;> rfl

theorem isSound_of_ofExpression {expression : Text}
    (h : ofExpression s.types s.factories expression = .ok m) : m.IsSound s := by
  unfold ofExpression at h
  split at h
  · cases h
  · split at h
    · cases h
    · rename_i fragments _
      rcases bound : fragments.mapM (BoundPiece.bind s.types s.factories) with fault | pieces
      · rw [bound] at h
        cases h
      · rw [bound] at h
        cases h
        exact ⟨BoundPiece.forall_isWithin (forall₂_of_mapM bound),
          fun _ _ kept => by cases kept⟩

end HeldMatcher
end StepMatch
