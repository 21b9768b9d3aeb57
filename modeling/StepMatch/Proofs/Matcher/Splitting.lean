import StepMatch.Proofs.Matcher.Pieces
import StepMatch.Proofs.Regex.Anchored

/-!
# Splitting a sentence along the pieces

Matching a sentence is splitting it along the pieces of the matcher, one text for each. The regex of
a matcher lays out the pieces as fields, those of slots under the names of their groups. So a search
finds a split if there is one, and each slot gets back its own text of that split.
-/

namespace StepMatch

open Regex (Lays Field)

variable {l : Locale}

namespace Piece

/-- The texts of the slots, in a text for each piece. -/
def slotTexts (pieces : List Piece) (ws : List Text) : List Text :=
  ((pieces.zip ws).filter fun x => x.1.isSlot).map Prod.snd

/-- The fields of pieces in order; `slot` is the number of slots before them. -/
def fields (l : Locale) (slot : Nat) : List Piece → List Field
  | [] => []
  | piece :: pieces =>
    if piece.isSlot then ⟨some (slotGroup slot), piece.language l⟩ :: fields l (slot + 1) pieces
    else ⟨none, piece.language l⟩ :: fields l slot pieces

variable {pieces : List Piece} {ws : List Text} {slot : Nat}

theorem slotGroup_injective : Function.Injective slotGroup := by
  intro i j h
  have digits : Nat.toDigits 10 i = Nat.toDigits 10 j := List.append_cancel_left h
  rw [← Nat.ofDigitChars_ten_toDigits (n := i), digits, Nat.ofDigitChars_ten_toDigits]

theorem slotGroup_ne_nil (i : Nat) : slotGroup i ≠ [] := by simp [slotGroup]

theorem allowsInName_slotGroup (i : Nat) :
    ∀ c ∈ slotGroup i, Regex.Dialect.extended.allowsInName true c := by
  intro c hc
  obtain hc | hc := List.mem_append.1 hc
  · have letters : "arg".toList.all (Regex.Dialect.extended.allowsInName false) = true := rfl
    exact List.all_eq_true.1 letters c hc
  · have digit := Nat.isDigit_of_mem_toDigits (by decide) (by decide) hc
    simp [Regex.Dialect.allowsInName, Char.isAlphanum, digit]

/-- Readable pieces make a regex that lays them out. -/
theorem lays_concatRegex (readable : ∀ piece ∈ pieces, piece.IsReadable l) (slot : Nat) :
    ∃ body, concatRegex l slot pieces = .ok body ∧ Lays .extended body (fields l slot pieces) := by
  induction pieces generalizing slot with
  | nil => exact ⟨[], rfl, .nil _⟩
  | cons piece pieces ih =>
    obtain ⟨⟨own, e, takes⟩, readable⟩ := List.forall_mem_cons.1 readable
    cases slots : piece.isSlot with
    | true =>
      obtain ⟨rest, e', lays⟩ := ih readable (slot + 1)
      rw [slots, if_pos rfl] at takes
      refine ⟨Regex.namedGroup (slotGroup slot) own ++ rest, ?_, ?_⟩
      · rw [concatRegex, e, slots, e']
        rfl
      · rw [fields, slots, if_pos rfl]
        exact (takes.named (slotGroup_ne_nil slot) (allowsInName_slotGroup slot)).append lays
    | false =>
      obtain ⟨rest, e', lays⟩ := ih readable slot
      rw [slots, if_neg Bool.false_ne_true] at takes
      refine ⟨own ++ rest, ?_, ?_⟩
      · rw [concatRegex, e, slots, e']
        rfl
      · rw [fields, slots, if_neg Bool.false_ne_true]
        exact takes.lays.append lays

/-- The names of fields are those of the groups of the slots. -/
theorem names_fields (l : Locale) (slot : Nat) (pieces : List Piece) :
    (fields l slot pieces).filterMap Field.name =
      (List.range' slot (pieces.filter isSlot).length).map slotGroup := by
  induction pieces generalizing slot with
  | nil => rfl
  | cons piece pieces ih =>
    rw [fields]
    split
    · rename_i slots
      rw [List.filterMap_cons, ih, List.filter_cons_of_pos slots, List.length_cons,
        List.range'_succ, List.map_cons]
    · rename_i slots
      rw [List.filterMap_cons, ih, List.filter_cons_of_neg slots]

theorem nodup_names_fields (l : Locale) (slot : Nat) (pieces : List Piece) :
    ((fields l slot pieces).filterMap Field.name).Nodup := by
  rw [names_fields]
  exact List.Nodup.map slotGroup_injective List.nodup_range'

/-- A cut along the fields is a split along the pieces. -/
theorem cut_fields_iff :
    Regex.Cut (fields l slot pieces) ws ↔ List.Forall₂ (Takes l) pieces ws := by
  induction pieces generalizing slot ws with
  | nil => simp [fields, Regex.Cut]
  | cons piece pieces ih =>
    have step : ∀ (name : Option Text) (slot : Nat),
        Regex.Cut (⟨name, piece.language l⟩ :: fields l slot pieces) ws ↔
          List.Forall₂ (Takes l) (piece :: pieces) ws := by
      intro name slot
      constructor
      · intro h
        obtain ⟨w, ws, hw, later, rfl⟩ := List.forall₂_cons_left_iff.1 h
        exact .cons hw (ih.1 later)
      · intro h
        obtain ⟨w, ws, hw, later, rfl⟩ := List.forall₂_cons_left_iff.1 h
        exact .cons hw (ih.2 later)
    rw [fields]
    split
    · exact step _ _
    · exact step _ _

theorem namedTexts_fields (slot : Nat) (h : List.Forall₂ (Takes l) pieces ws) :
    Regex.namedTexts (fields l slot pieces) ws = slotTexts pieces ws := by
  induction h generalizing slot with
  | nil => rfl
  | @cons piece w pieces ws _ _ ih =>
    rw [fields]
    cases slots : piece.isSlot with
    | true => simpa [Regex.namedTexts, slotTexts, slots] using ih (slot + 1)
    | false => simpa [Regex.namedTexts, slotTexts, slots] using ih slot

/-- Why the text of a slot is refused, if it is. -/
def refusal? (l : Locale) : Piece × Text → Option MatchFault
  | (.pattern _, _) => none
  | (.argument binding type, t) =>
    match Argument.read binding type l t with
    | .ok _ => none
    | .error fault => some fault
  | (.assertion factory, t) =>
    match factory.resolve l t with
    | .ok _ => none
    | .error fault => some (.assertion fault)

/-- What the text of an argument slot is read as, under the name of the slot. -/
def argument? (l : Locale) : Piece × Text → Option (Except MatchFault (String × Argument))
  | (.argument binding type, t) => some ((Argument.read binding type l t).map (binding, ·))
  | _ => none

/-- What the text of an assertion slot asserts. -/
def assertion? (l : Locale) : Piece × Text → Option (Except AssertionFault Assertion)
  | (.assertion factory, t) => some (factory.resolve l t)
  | _ => none

end Piece

namespace Match

/-- The match holds one argument for each argument slot, in order, and what the assertion slot
asserts. -/
structure Collects (l : Locale) (slots : List (Piece × Text)) (m : Match) : Prop where
  arguments : m.arguments.map .ok = slots.filterMap (Piece.argument? l)
  assertion : m.assertion.map .ok = (slots.filterMap (Piece.assertion? l)).getLast?

variable {slots : List (Piece × Text)} {m : Match} {x : Piece × Text} {fault : MatchFault}

theorem readSlot_of_refused (h : Piece.refusal? l x = some fault) : readSlot l m x = .error fault := by
  obtain ⟨_ | ⟨binding, type⟩ | factory, t⟩ := x
  · cases h
  · rw [Piece.refusal?] at h
    rw [readSlot]
    cases e : Argument.read binding type l t with
    | ok a => rw [e] at h; cases h
    | error fault => rw [e] at h; cases h; rfl
  · rw [Piece.refusal?] at h
    rw [readSlot]
    cases e : factory.resolve l t with
    | ok a => rw [e] at h; cases h
    | error fault => rw [e] at h; cases h; rfl

/-- A slot that is read adds its argument, or decides on the assertion. -/
theorem readSlot_of_read (h : Piece.refusal? l x = none) : ∃ m', readSlot l m x = .ok m' ∧
    m'.arguments.map Except.ok = m.arguments.map Except.ok ++ (Piece.argument? l x).toList ∧
    m'.assertion.map Except.ok = (Piece.assertion? l x).or (m.assertion.map Except.ok) := by
  obtain ⟨_ | ⟨binding, type⟩ | factory, t⟩ := x
  · exact ⟨m, rfl, by simp [Piece.argument?], by simp [Piece.assertion?]⟩
  · rw [Piece.refusal?] at h
    cases e : Argument.read binding type l t with
    | error fault => rw [e] at h; cases h
    | ok a =>
      refine ⟨{ m with arguments := m.arguments ++ [(binding, a)] }, ?_, ?_, ?_⟩
      · rw [readSlot, e]
        rfl
      · simp [Piece.argument?, e, Except.map]
      · simp [Piece.assertion?]
  · rw [Piece.refusal?] at h
    cases e : factory.resolve l t with
    | error fault => rw [e] at h; cases h
    | ok a =>
      refine ⟨{ m with assertion := some a }, ?_, ?_, ?_⟩
      · rw [readSlot, e]
      · simp [Piece.argument?]
      · simp [Piece.assertion?, e]

/-- The first slot that is refused decides. -/
theorem foldlM_of_refused (h : slots.findSome? (Piece.refusal? l) = some fault) :
    slots.foldlM (readSlot l) m = .error fault := by
  induction slots generalizing m with
  | nil => cases h
  | cons x slots ih =>
    rw [List.findSome?_cons] at h
    rw [List.foldlM_cons]
    split at h
    · rename_i refused
      cases h
      rw [readSlot_of_refused refused]
      rfl
    · rename_i read
      obtain ⟨m', e, -⟩ := readSlot_of_read (m := m) read
      rw [e]
      exact ih h

/-- If none is refused, everything in the slots is collected. -/
theorem foldlM_of_read (h : slots.findSome? (Piece.refusal? l) = none) :
    ∃ m', slots.foldlM (readSlot l) m = .ok m' ∧
      m'.arguments.map Except.ok =
        m.arguments.map Except.ok ++ slots.filterMap (Piece.argument? l) ∧
      m'.assertion.map Except.ok =
        (slots.filterMap (Piece.assertion? l)).getLast?.or (m.assertion.map Except.ok) := by
  induction slots generalizing m with
  | nil => exact ⟨m, rfl, by simp, by simp⟩
  | cons x slots ih =>
    rw [List.findSome?_cons] at h
    split at h
    · cases h
    · rename_i read
      obtain ⟨m₁, e, arguments, assertion⟩ := readSlot_of_read (m := m) read
      obtain ⟨m', run, arguments', assertion'⟩ := ih (m := m₁) h
      refine ⟨m', ?_, ?_, ?_⟩
      · rw [List.foldlM_cons, e]
        exact run
      · rw [arguments', arguments, List.filterMap_cons, List.append_assoc]
        cases Piece.argument? l x <;> rfl
      · rw [assertion', assertion, List.filterMap_cons]
        cases Piece.assertion? l x with
        | none => rfl
        | some a =>
          rw [List.getLast?_cons]
          cases (slots.filterMap (Piece.assertion? l)).getLast? <;> rfl

end Match

namespace Matcher

/-- A text for each piece of the matcher, one that the piece takes by itself; together they are the
sentence. -/
def Splits (m : Matcher) (l : Locale) (sentence : Text) (ws : List Text) : Prop :=
  List.Forall₂ (Piece.Takes l) m.pieces ws ∧ ws.flatten = sentence

variable {m : Matcher} {sentence : Text}

theorem length_slotTexts {pieces : List Piece} {ws : List Text}
    (h : List.Forall₂ (Piece.Takes l) pieces ws) :
    (Piece.slotTexts pieces ws).length = (pieces.filter Piece.isSlot).length := by
  rw [← Piece.namedTexts_fields 0 h,
    (Regex.cutCaptures_eq_zip (Piece.cut_fields_iff.2 h)).2, Piece.names_fields, List.length_map,
    List.length_range']

/-- A search with the regex of readable pieces finds a split if there is one, with the texts of the
slots in their groups. -/
theorem search_program (readable : ∀ piece ∈ m.pieces, piece.IsReadable l) (sentence : Text) :
    ∃ p, m.program l = .ok p ∧
      (p.regex.search sentence = none → ∀ ws, ¬ m.Splits l sentence ws) ∧
      ∀ o, p.regex.search sentence = some o → ∃ ws, m.Splits l sentence ws ∧
        ∀ i < m.slots.length, ∃ w, (Piece.slotTexts m.pieces ws)[i]? = some w ∧
          o.group? (Piece.slotGroup i) = some w := by
  obtain ⟨body, e, lays⟩ := Piece.lays_concatRegex readable 0
  have nodup := Piece.nodup_names_fields l 0 m.pieces
  obtain ⟨items, read, layout⟩ := lays.read?_anchored nodup
  obtain ⟨found, lost⟩ := Regex.search_between layout sentence
  refine ⟨⟨Regex.anchored body, Regex.between items⟩, ?_, ?_, ?_⟩
  · rw [program, e]
    dsimp only [Except.bind]
    rw [read]
  · exact fun none ws h => lost none ws (Piece.cut_fields_iff.2 h.1) h.2
  · intro o ho
    obtain ⟨ws, cut, whole, captures⟩ := found o ho
    have split := Piece.cut_fields_iff.1 cut
    obtain ⟨zip, length⟩ := Regex.cutCaptures_eq_zip cut
    rw [Piece.namedTexts_fields 0 split] at zip length
    refine ⟨ws, ⟨split, whole⟩, fun i hi => ?_⟩
    have lt : i < (Piece.slotTexts m.pieces ws).length := by rwa [length_slotTexts split]
    have name : ((Piece.fields l 0 m.pieces).filterMap Field.name)[i]? =
        some (Piece.slotGroup i) := by
      have lt : i < (m.pieces.filter Piece.isSlot).length := hi
      rw [Piece.names_fields, List.getElem?_map, List.getElem?_range' lt]
      simp
    exact ⟨_, List.getElem?_eq_getElem lt, Regex.group?_of_zip (captures.trans zip) length nodup name
      (List.getElem?_eq_getElem lt)⟩

/-- Groups that all take part give back their texts. -/
theorem capturedTexts_eq {o : Regex.Outcome} {ts : List Text}
    (h : ∀ i < ts.length, ∃ w, ts[i]? = some w ∧ o.group? (Piece.slotGroup i) = some w) :
    capturedTexts o ts.length = ts := by
  refine List.ext_getElem (by simp [capturedTexts]) fun i _ hi => ?_
  obtain ⟨w, hw, group⟩ := h i hi
  have : ts[i] = w := by simpa [List.getElem?_eq_getElem hi] using hw
  simp [capturedTexts, group, this]

/-- Matching a sentence is splitting it along the pieces. There is no match exactly if there is no
split. Otherwise each slot takes part with its text of one of the splits, and that is read: the
first slot whose text is refused is the fault of the match, and if none is refused, the match
collects what is in all of them. -/
structure FollowsSplits (m : Matcher) (l : Locale) (sentence : Text) : Prop where
  unmatched : m.matchIn l sentence = .ok none ↔ ∀ ws, ¬ m.Splits l sentence ws
  matched : (∃ ws, m.Splits l sentence ws) → ∃ ws p o, m.Splits l sentence ws ∧
    m.program l = .ok p ∧ p.regex.search sentence = some o ∧
    (∀ i < m.slots.length, ∃ w, (Piece.slotTexts m.pieces ws)[i]? = some w ∧
      o.group? (Piece.slotGroup i) = some w) ∧
    (∀ fault, (m.slots.zip (Piece.slotTexts m.pieces ws)).findSome? (Piece.refusal? l) = some fault →
      m.matchIn l sentence = .error fault) ∧
    ((m.slots.zip (Piece.slotTexts m.pieces ws)).findSome? (Piece.refusal? l) = none →
      ∃ result, m.matchIn l sentence = .ok (some result) ∧
        result.Collects l (m.slots.zip (Piece.slotTexts m.pieces ws)))

/-- A matcher of readable pieces follows the splits of a sentence. -/
theorem followsSplits_of_isReadable (readable : ∀ piece ∈ m.pieces, piece.IsReadable l)
    (sentence : Text) : m.FollowsSplits l sentence := by
  obtain ⟨p, e, lost, found⟩ := search_program readable sentence
  have runs : m.matchIn l sentence = m.matchWith p l sentence := by
    rw [matchIn, e]
    rfl
  -- Whatever the search finds, the texts that are read are those of a split.
  have read : ∀ o, p.regex.search sentence = some o → ∃ ws, m.Splits l sentence ws ∧
      (∀ i < m.slots.length, ∃ w, (Piece.slotTexts m.pieces ws)[i]? = some w ∧
        o.group? (Piece.slotGroup i) = some w) ∧
      m.matchIn l sentence = ((m.slots.zip (Piece.slotTexts m.pieces ws)).foldlM
        (Match.readSlot l) {}).map some := by
    intro o ho
    obtain ⟨ws, split, groups⟩ := found o ho
    have length : (Piece.slotTexts m.pieces ws).length = m.slots.length := length_slotTexts split.1
    have texts := capturedTexts_eq (length ▸ groups)
    refine ⟨ws, split, groups, ?_⟩
    rw [runs, matchWith, ho]
    dsimp only
    rw [← length, texts]
  constructor
  · constructor
    · intro unmatched ws split
      cases ho : p.regex.search sentence with
      | none => exact lost ho ws split
      | some o =>
        obtain ⟨ws, -, -, e⟩ := read o ho
        rw [unmatched] at e
        obtain ⟨_, -, e⟩ := ok_of_map e.symm
        cases e
    · intro none
      cases ho : p.regex.search sentence with
      | none => rw [runs, matchWith, ho]
      | some o =>
        obtain ⟨ws, split, -⟩ := read o ho
        exact absurd split (none ws)
  · rintro ⟨ws, split⟩
    cases ho : p.regex.search sentence with
    | none => exact absurd split (lost ho ws)
    | some o =>
      obtain ⟨ws, split, groups, e'⟩ := read o ho
      refine ⟨ws, p, o, split, e, ho, groups, fun fault refused => ?_, fun accepted => ?_⟩
      · rw [e', Match.foldlM_of_refused refused]
        rfl
      · obtain ⟨result, run, arguments, assertion⟩ := Match.foldlM_of_read (m := {}) accepted
        refine ⟨result, ?_, by simpa using arguments, by simpa using assertion⟩
        rw [e', run]
        rfl

theorem ofExpression_of_compile {types : DataTypes} {factories : AssertionFactories}
    {default : Locale} {expression : Text}
    (h : compile types factories default expression = .ok m) :
    ofExpression types factories expression = .ok m := by
  obtain ⟨m', made, h⟩ := ok_of_bind h
  split at h
  · cases h
    exact made
  · cases h

theorem compile_of_ofExpression {types : DataTypes} {factories : AssertionFactories}
    {default : Locale} {expression : Text}
    (made : ofExpression types factories expression = .ok m)
    (builds : (m.program default).toOption.isSome) :
    compile types factories default expression = .ok m := by
  rw [compile, made]
  dsimp only [Except.bind]
  split
  · rfl
  · rename_i e
    rw [e] at builds
    cases builds

end Matcher
end StepMatch
