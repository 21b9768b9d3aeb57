import Mathlib.Data.List.Basic
import StepMatch.Proofs.Expression.Trees

/-!
# Tokens tile the expression

The tokens of an expression are read from stretches that follow each other without a gap: the first
one starts at byte 0, and each later one where the one before it stops. A structural symbol is read
from its own spelling. A run of text is read from text that spells it: every structural character
there stands behind a backslash.
-/

namespace StepMatch

/-- The bytes that the text takes up in UTF-8. -/
def Text.byteLength : Text → Nat
  | [] => 0
  | c :: t => c.utf8Size + Text.byteLength t

@[simp] theorem Text.byteLength_nil : Text.byteLength [] = 0 := rfl

@[simp] theorem Text.byteLength_cons (c : Char) (t : Text) :
    Text.byteLength (c :: t) = c.utf8Size + Text.byteLength t := rfl

@[simp] theorem Text.byteLength_append (t u : Text) :
    Text.byteLength (t ++ u) = Text.byteLength t + Text.byteLength u := by
  induction t with
  | nil => simp
  | cons c t ih => simp [ih, Nat.add_assoc]

open Token (unescape symbolOf? joinText scanFrom scan)

/-- The first text spells the second: each structural character stands behind a backslash, which goes
with it; before any other character a backslash stays. -/
inductive Spells : Text → Text → Prop where
  | nil : Spells [] []
  | escaped (c : Char) {source t : Text} (later : Spells source t) :
    Spells ('\\' :: c :: source) (unescape c ++ t)
  | plain {c : Char} {source t : Text} (own : isStructural c = false) (later : Spells source t) :
    Spells (c :: source) (c :: t)

/-- The stretch of an expression that the symbol is read from. -/
def Symbol.IsReadFrom (source : Text) : Symbol → Prop
  | .text t => source ≠ [] ∧ Spells source t
  | symbol => source = symbol.describe

/-- The tokens are read from the text, which starts at a byte of the expression. -/
inductive Tiled : Nat → Text → List Token → Prop where
  | nil {pos : Nat} : Tiled pos [] []
  | cons {pos : Nat} {symbol : Symbol} {source rest : Text} {later : List Token}
    (own : symbol.IsReadFrom source) (others : Tiled (pos + source.byteLength) rest later) :
    Tiled pos (source ++ rest) (⟨symbol, pos, pos + source.byteLength⟩ :: later)

variable {pos : Nat} {piece source rest : Text} {c : Char} {tokens : List Token}

/-- The characters of literal text stand in the text that spells it. -/
theorem Spells.mem {t : Text} (h : Spells source t) (hc : c ∈ t) : c ∈ source := by
  induction h with
  | nil => exact hc
  | escaped d _ ih =>
    have own : c ∈ unescape d → c = d ∨ c = '\\' := by
      rw [unescape]
      split <;> simp +contextual [or_comm]
    obtain hc | hc := List.mem_append.1 hc
    · obtain rfl | rfl := own hc <;> simp
    · exact List.mem_cons_of_mem _ (List.mem_cons_of_mem d (ih hc))
  | plain _ _ ih =>
    obtain rfl | hc := List.mem_cons.1 hc
    · exact List.mem_cons_self
    · exact List.mem_cons_of_mem _ (ih hc)

/-- Text that spells literal text extends the run of text after it, or is a run of its own. -/
theorem Tiled.joinText (ne : source ≠ [])
    (spelled : ∀ {later t : Text}, Spells later t → Spells (source ++ later) (piece ++ t))
    (h : Tiled (pos + source.byteLength) rest tokens) :
    Tiled pos (source ++ rest) (joinText pos (pos + source.byteLength) piece tokens) := by
  rw [Token.joinText.eq_def]
  split
  · cases h with
    | @cons _ _ source' rest' _ own others =>
      obtain ⟨-, own⟩ := own
      rw [← List.append_assoc]
      have next : (Symbol.text (piece ++ _)).IsReadFrom (source ++ source') :=
        ⟨List.append_ne_nil_of_left_ne_nil ne _, spelled own⟩
      rw [Nat.add_assoc, ← Text.byteLength_append] at others ⊢
      exact .cons next others
  · have own : (Symbol.text piece).IsReadFrom source := ⟨ne, by simpa using spelled .nil⟩
    exact .cons own h

/-- A character with a meaning of its own is the spelling of its symbol. -/
theorem isReadFrom_of_symbolOf? {symbol : Symbol} (h : symbolOf? c = some symbol) :
    symbol.IsReadFrom [c] := by
  unfold symbolOf? at h
  split at h <;> cases h <;> rfl

/-- A character without a meaning of its own is a backslash, or has none. -/
theorem isStructural_eq_false (none : symbolOf? c = none) (ne : c ≠ '\\') :
    isStructural c = false := by
  unfold symbolOf? at none
  split at none <;> try cases none
  simp only [isStructural, Bool.or_eq_false_iff, beq_eq_false_iff_ne]
  grind

/-- The tokens of an expression tile it. -/
theorem tiled_of_scanFrom (h : scanFrom pos rest = .ok tokens) : Tiled pos rest tokens := by
  fun_induction scanFrom pos rest generalizing tokens with
  | case1 pos =>
    cases h
    exact .nil
  | case2 => cases h
  | case3 pos c rest stop =>
    rename_i ih
    obtain ⟨later, scanned, rfl⟩ := ok_of_map h
    have width : stop = pos + Text.byteLength ['\\', c] := by
      simp only [stop, Text.byteLength_cons, Text.byteLength_nil, Nat.add_assoc]
      rfl
    have others := ih scanned
    rw [width] at others ⊢
    exact Tiled.joinText (List.cons_ne_nil '\\' [c]) (fun h => .escaped c h) others
  | case4 pos rest ih =>
    obtain ⟨later, scanned, rfl⟩ := ok_of_map h
    have own : Symbol.startAssertion.IsReadFrom ['{', '{'] := rfl
    exact .cons own (ih scanned)
  | case5 pos rest ih =>
    obtain ⟨later, scanned, rfl⟩ := ok_of_map h
    have own : Symbol.endAssertion.IsReadFrom ['}', '}'] := rfl
    exact .cons own (ih scanned)
  | case6 pos c rest _ _ _ _ stop symbol found =>
    rename_i ih
    obtain ⟨later, scanned, rfl⟩ := ok_of_map h
    exact .cons (isReadFrom_of_symbolOf? found) (ih scanned)
  | case7 pos c rest lone escape _ _ stop none =>
    rename_i ih
    obtain ⟨later, scanned, rfl⟩ := ok_of_map h
    have ordinary : isStructural c = false := by
      refine isStructural_eq_false none fun e => ?_
      cases rest with
      | nil => exact lone e rfl
      | cons d rest => exact escape d rest e rfl
    exact Tiled.joinText (List.cons_ne_nil c []) (fun h => .plain ordinary h) (ih scanned)

/-- No token stands for an empty run of text. -/
theorem texts_of_tiled (h : Tiled pos rest tokens) : ∀ token ∈ tokens, token.symbol ≠ .text [] := by
  induction h with
  | nil => simp
  | cons own _ ih =>
    refine List.forall_mem_cons.2 ⟨?_, ih⟩
    rintro rfl
    obtain ⟨ne, spelled⟩ := own
    generalize e : ([] : Text) = t at spelled
    cases spelled with
    | nil => exact ne rfl
    | escaped c later =>
      rw [unescape] at e
      split at e <;> cases e
    | plain own later => cases e

end StepMatch
