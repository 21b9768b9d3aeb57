import StepMatch.Proofs.Regex.Folded

/-!
# How values open

A value stands behind the words of a phrase. If a value could open with the word that a longer phrase
goes on with, one could be taken for the other. A language is apart from a text if no word of it opens
with the text and the text opens with no word of it. The first part of a regex decides, since what comes
later is behind it.
-/

namespace StepMatch.Regex

/-- No word of the language opens with the text, nor is one an opening of it. -/
def Apart (b : Text) (L : TextLanguage) : Prop := ∀ w ∈ L, ¬ b <+: w ∧ ¬ w <+: b

variable {b t u w : Text} {c : Char} {L M : TextLanguage} {d : Dialect} {firm : Bool}

namespace Apart

/-- Something behind changes nothing. -/
theorem mul (h : Apart b L) (M : TextLanguage) : Apart b (L * M) := by
  intro w hw
  obtain ⟨u, hu, v, -, rfl⟩ := Language.mem_mul.1 hw
  obtain ⟨longer, shorter⟩ := h u hu
  have front : u <+: u ++ v := List.prefix_append u v
  constructor
  · intro opens
    exact (List.prefix_or_prefix_of_prefix opens front).elim longer shorter
  · intro opened
    exact shorter (front.trans opened)

theorem add (h : Apart b L) (h' : Apart b M) : Apart b (L + M) := fun w hw =>
  ((Language.mem_add _ _ _).1 hw).elim (h w) (h' w)

theorem sum {Ls : List TextLanguage} (each : ∀ L ∈ Ls, Apart b L) : Apart b Ls.sum := by
  induction Ls with
  | nil => exact fun w hw => absurd hw (Language.notMem_zero w)
  | cons L Ls ih =>
    obtain ⟨own, rest⟩ := List.forall_mem_cons.1 each
    exact own.add (ih rest)

/-- With or without something in front. -/
theorem optional_mul (h : Apart b L) (h' : Apart b M) : Apart b ((1 + L) * M) := by
  rw [add_mul, one_mul]
  exact h'.add (h.mul M)

theorem repeats (h : Apart b L) {low : Nat} (pos : 0 < low) (high : Option Nat) :
    Apart b (Regex.repeats low high L) := by
  intro w hw
  obtain ⟨n, least, -, power⟩ := hw
  obtain ⟨n, rfl⟩ := Nat.exists_eq_add_of_lt (Nat.lt_of_lt_of_le pos least)
  rw [Nat.zero_add, pow_succ'] at power
  exact h.mul (L ^ n) w power

/-- A character that is not the first one of the text. -/
theorem chars {fold : Bool} {s : CharSet} (other : s.contains fold c = false) :
    Apart (c :: b) (Regex.chars fold s).language := by
  intro w hw
  obtain ⟨c', mem, rfl⟩ := hw
  constructor
  · intro opens
    rw [(List.cons_prefix_cons.1 opens).1, mem] at other
    cases other
  · intro opened
    rw [← (List.cons_prefix_cons.1 opened).1, mem] at other
    cases other

theorem ofSet {s : CharSet} (other : s.contains false c = false) : Apart (c :: b) (Regex.ofSet s) :=
  chars other

theorem singleton {c' : Char} (ne : c ≠ c') : Apart (c :: b) {[c']} := by
  rw [← ofSet_single]
  exact ofSet (by simpa [CharSet.contains] using ne)

end Apart

/-- Whether two words differ in the letters that both of them have, and not in their case alone. -/
def differs (b w : Text) : Bool := (b.zip w).any fun (c, c') => !(CharSet.single c').contains true c

theorem apart_anyCase (h : differs b w) : Apart b (anyCase w) := by
  induction w generalizing b with
  | nil => simp [differs] at h
  | cons c' w ih =>
    obtain _ | ⟨c, b⟩ := b
    · simp [differs] at h
    · have split : anyCase (c' :: w) = (Regex.chars true (.single c')).language * anyCase w := by
        simp [anyCase]
      rw [split]
      cases same : (CharSet.single c').contains true c with
      | false => exact (Apart.chars same).mul _
      | true =>
        have later : differs b w := by simpa [differs, same] using h
        intro v hv
        obtain ⟨_, ⟨x, -, rfl⟩, rest, mem, rfl⟩ := Language.mem_mul.1 hv
        obtain ⟨longer, shorter⟩ := ih later rest mem
        constructor
        · intro opens
          exact longer (List.cons_prefix_cons.1 opens).2
        · intro opened
          exact shorter (List.cons_prefix_cons.1 opened).2

/-- A regex text for values that are apart from a text: both dialects read the same language of it. -/
def IsApartText (b t : Text) : Prop := ∃ L, IsShared t L ∧ Apart b L

/-- The start of such a text. -/
def OpensApart (firm : Bool) (b t : Text) : Prop := ∃ L, (∀ d, Writes firm d t L) ∧ Apart b L

/-- What such a text accepts is apart from the other one. -/
theorem IsApartText.apart (h : IsApartText b t) (shared : IsShared t L) : Apart b L := by
  obtain ⟨M, same, apart⟩ := h
  rw [← shared.accepted_eq, same.accepted_eq]
  exact apart

theorem IsApartText.grouped (h : IsApartText b t) : OpensApart false b (Regex.grouped t) := by
  obtain ⟨L, shared, apart⟩ := h
  exact ⟨L, fun d => (shared d).writes_grouped, apart⟩

namespace OpensApart

theorem text (h : OpensApart firm b t) : IsApartText b t := by
  obtain ⟨L, writes, apart⟩ := h
  exact ⟨L, fun d => (writes d).loosen.body, apart⟩

/-- Anything may stand behind. -/
theorem append (h : OpensApart firm b t) (behind : ∃ M, ∀ d, Writes firm d u M) :
    OpensApart firm b (t ++ u) := by
  obtain ⟨L, front, apart⟩ := h
  obtain ⟨M, behind⟩ := behind
  exact ⟨L * M, fun d => (front d).append (behind d), apart.mul M⟩

/-- A piece in front that may be missing. -/
theorem optional_append (piece : ∀ d, WritesAtom d t L) (apart : Apart b L) (h : OpensApart firm b u) :
    OpensApart firm b (t ++ ['?'] ++ u) := by
  obtain ⟨M, writes, apart'⟩ := h
  exact ⟨_, fun d => (piece d).optional.append (writes d), apart.optional_mul apart'⟩

/-- A piece that is there at least once. -/
theorem plus (h : ∀ d, WritesAtom d t L) (apart : Apart b L) : OpensApart firm b (t ++ ['+']) :=
  ⟨_, fun d => (h d).quantified (step_plus d), apart.repeats Nat.one_pos none⟩

end OpensApart

/-- Alternatives that all are apart from a text. -/
theorem isApartText_alternatives {ts : List Text} (ne : ts ≠ []) (each : ∀ t ∈ ts, IsApartText b t) :
    IsApartText b (alternatives ts) := by
  obtain ⟨t, ts, rfl⟩ := List.exists_cons_of_ne_nil ne
  clear ne
  induction ts generalizing t with
  | nil => simpa [alternatives, Text.joinWith] using each
  | cons u us ih =>
    obtain ⟨⟨L, shared, apart⟩, rest⟩ := List.forall_mem_cons.1 each
    obtain ⟨M, shared', apart'⟩ := ih u rest
    exact ⟨L + M, fun d => by simpa [alternatives, Text.joinWith] using (shared d).bar (shared' d),
      apart.add apart'⟩

/-- Words in any case, none of them with the letters of the text. -/
theorem opensApart_foldedGroup {ws : List Text} (ne : ws ≠ []) (each : ∀ w ∈ ws, differs b w) :
    OpensApart false b (foldedGroup (alternatives (ws.map escape))) := by
  refine ⟨_, fun d => writes_foldedGroup d ne, Apart.sum fun L hL => ?_⟩
  obtain ⟨w, hw, rfl⟩ := List.mem_map.1 hL
  exact apart_anyCase (each w hw)

section Digits

variable {n : Nat} (other : CharSet.digit.contains false c = false)
include other

theorem apart_digit : Apart (c :: b) (ofSet .digit) := .ofSet other

theorem opensApart_digits (pos : 0 < n) (few : n < 10) : OpensApart true (c :: b) (digits n) :=
  ⟨_, fun d => writes_digits d few, (apart_digit other).repeats pos _⟩

theorem opensApart_digitsUpTo (pos : 0 < n) (few : n < 10) :
    OpensApart true (c :: b) (digitsUpTo n) :=
  ⟨_, fun d => writes_digitsUpTo d pos few, (apart_digit other).repeats Nat.one_pos _⟩

end Digits

end StepMatch.Regex
