import StepMatch.Proofs.Regex.Counts
import StepMatch.Proofs.Regex.Embedding

/-!
# Regexes of values

The regex of a value is read twice: in a sentence in the extended dialect, and in a single phrase in the
plain one. Blanks at the ends of a phrase are cut off before it is read. That changes nothing where the
regex takes the same texts in both dialects, and none that closes with a blank. Regex texts like this can
be put together.
-/

namespace StepMatch

/-- All blanks. -/
def blankChars : List Char :=
  ((List.range' 0x09 5) ++ [0x20, 0x85, 0xA0, 0x1680] ++ (List.range' 0x2000 11)
    ++ [0x2028, 0x2029, 0x202F, 0x205F, 0x3000]).map Char.ofNat

theorem mem_blankChars {c : Char} (h : isBlank c = true) : c ∈ blankChars := by
  rw [blankChars, List.mem_map]
  refine ⟨c.toNat, ?_, Char.ofNat_toNat c⟩
  simp only [isBlank] at h
  simp only [List.mem_append, List.mem_range'_1, List.mem_cons, List.not_mem_nil, or_false]
  split at h <;> simp at h <;> omega

/-- Whether no blank is in the set. -/
def CharSet.isInky (fold : Bool) (s : CharSet) : Bool := blankChars.all fun c => !s.contains fold c

theorem CharSet.isBlank_eq_false {fold : Bool} {s : CharSet} {c : Char} (h : s.isInky fold = true)
    (mem : s.contains fold c = true) : isBlank c = false := by
  rw [Bool.eq_false_iff]
  intro blank
  have out := List.all_eq_true.1 h c (mem_blankChars blank)
  simp [mem] at out

theorem isBlank_eq_false_of_isDigit {c : Char} (h : isDigit c) : isBlank c = false :=
  CharSet.isBlank_eq_false (show CharSet.digit.isInky false = true by decide) h

namespace Regex

/-- Whether no text that the regex takes closes with a blank. -/
def closesWithInk : Regex → Bool
  | .empty | .atStart | .atEnd | .ahead .. | .atomic _ => true
  | .chars fold s => s.isInky fold
  | .seq r s => s.closesWithInk && (!s.nullable || r.closesWithInk)
  | .alt r s => r.closesWithInk && s.closesWithInk
  | .repeated _ _ _ r | .capture _ r => r.closesWithInk

variable {r : Regex} {t w : Text}

/-- A local regex that takes no empty text by its shape has none in its language. -/
theorem ne_nil_of_mem_language (loc : r.isLocal) (h : r.nullable = false) (hw : w ∈ r.language) :
    w ≠ [] := by
  rintro rfl
  obtain ⟨cs, span⟩ := (links_spans_iff loc ⟨0, []⟩ ⟨0, []⟩).2 ⟨[], hw, .refl _⟩
  exact absurd (Spans.moves h span) (Nat.lt_irrefl _)

theorem endsBlank_append {u v : Text} (h : v.endsBlank = false) (h' : v = [] → u.endsBlank = false) :
    Text.endsBlank (u ++ v) = false := by
  cases v with
  | nil => simpa using h' rfl
  | cons c v => rwa [Text.endsBlank, List.getLast?_append_of_ne_nil u (List.cons_ne_nil c v)]

theorem endsBlank_of_mem_pow {L : TextLanguage} (h : ∀ w ∈ L, Text.endsBlank w = false) {n : Nat}
    (hw : w ∈ L ^ n) : w.endsBlank = false := by
  induction n generalizing w with
  | zero =>
    rw [pow_zero, Language.mem_one] at hw
    rw [hw]
    rfl
  | succ n ih =>
    rw [pow_succ] at hw
    obtain ⟨u, hu, v, hv, rfl⟩ := Language.mem_mul.1 hw
    exact endsBlank_append (h v hv) fun _ => ih hu

theorem endsBlank_of_mem_language (loc : r.isLocal) (h : r.closesWithInk) (hw : w ∈ r.language) :
    w.endsBlank = false := by
  induction r generalizing w with
  | empty =>
    rw [language, Language.mem_one] at hw
    rw [hw]
    rfl
  | chars fold s =>
    obtain ⟨c, mem, rfl⟩ := hw
    exact CharSet.isBlank_eq_false h mem
  | seq r s ihr ihs =>
    rw [isLocal, Bool.and_eq_true] at loc
    rw [closesWithInk, Bool.and_eq_true] at h
    obtain ⟨u, hu, v, hv, rfl⟩ := Language.mem_mul.1 hw
    refine endsBlank_append (ihs loc.2 h.1 hv) fun none => ?_
    cases fills : s.nullable with
    | false => exact absurd none (ne_nil_of_mem_language loc.2 fills hv)
    | true => exact ihr loc.1 (by simpa [fills] using h.2) hu
  | alt r s ihr ihs =>
    rw [isLocal, Bool.and_eq_true] at loc
    rw [closesWithInk, Bool.and_eq_true] at h
    exact ((Language.mem_add _ _ _).1 hw).elim (ihr loc.1 h.1) (ihs loc.2 h.2)
  | repeated _ _ _ r ih =>
    obtain ⟨n, -, -, power⟩ := hw
    exact endsBlank_of_mem_pow (fun w hw => ih loc h hw) power
  | capture _ r ih => exact ih loc h hw
  | atStart | atEnd | ahead | atomic => cases loc

/-- A regex text that writes the same language in both dialects, between brackets. -/
def IsShared (t : Text) (L : TextLanguage) : Prop := ∀ d, WritesBody false d t L

/-- No word of the language is empty or closes with a blank. -/
def ClosesInInk (L : TextLanguage) : Prop := ∀ w ∈ L, w ≠ [] ∧ Text.endsBlank w = false

variable {u : Text} {L M : TextLanguage} {firm : Bool}

namespace IsShared

theorem isLocalText (h : IsShared t L) : isLocalText t := (h .extended).isLocalText_and_accepted.1

theorem accepted_eq (h : IsShared t L) : accepted t = L := (h .extended).isLocalText_and_accepted.2

end IsShared

namespace ClosesInInk

theorem mul (h : ClosesInInk M) (L : TextLanguage) : ClosesInInk (L * M) := by
  intro w hw
  obtain ⟨u, -, v, hv, rfl⟩ := Language.mem_mul.1 hw
  obtain ⟨fills, closes⟩ := h v hv
  exact ⟨List.append_ne_nil_of_right_ne_nil u fills, endsBlank_append closes fun none => absurd none fills⟩

theorem add (h : ClosesInInk L) (h' : ClosesInInk M) : ClosesInInk (L + M) := fun w hw =>
  ((Language.mem_add _ _ _).1 hw).elim (h w) (h' w)

/-- With or without something behind it. -/
theorem mul_optional (h : ClosesInInk L) (h' : ClosesInInk M) : ClosesInInk (L * (1 + M)) := by
  rw [mul_add, mul_one]
  exact h.add (h'.mul L)

theorem repeats (h : ClosesInInk L) {low : Nat} (pos : 0 < low) (high : Option Nat) :
    ClosesInInk (Regex.repeats low high L) := by
  rintro w ⟨n, least, -, hw⟩
  obtain ⟨n, rfl⟩ := Nat.exists_eq_add_of_lt (Nat.lt_of_lt_of_le pos least)
  rw [Nat.zero_add, pow_succ] at hw
  exact h.mul (L ^ n) w hw

theorem ofSet {s : CharSet} (h : s.isInky false = true) : ClosesInInk (Regex.ofSet s) := by
  rintro _ ⟨c, mem, rfl⟩
  exact ⟨List.cons_ne_nil _ _, CharSet.isBlank_eq_false h mem⟩

theorem singleton {c : Char} (ink : isBlank c = false) : ClosesInInk {[c]} := by
  rintro _ rfl
  exact ⟨List.cons_ne_nil _ _, ink⟩

end ClosesInInk

/-- A regex text for values: both dialects read the same language of it, and its words are filled and
close with ink. -/
def IsValueText (t : Text) : Prop := ∃ L, IsShared t L ∧ ClosesInInk L

/-- A part of such a text, for the end of what is written. -/
def IsValuePart (firm : Bool) (t : Text) : Prop := ∃ L, (∀ d, Writes firm d t L) ∧ ClosesInInk L

/-- Whether a text is read alike in both dialects, as a regex that looks at nothing but what it takes,
names nothing, and whose words are filled and close with ink. -/
def readsAsValue (t : Text) : Bool :=
  match read? .extended t, read? .plain t with
  | some r, some r' => r == r' && r.isLocal && r.groupNames.isEmpty && !r.nullable && r.closesWithInk
      && !t.contains '<'
  | _, _ => false

theorem IsValueText.isLocalText (h : IsValueText t) : isLocalText t := by
  obtain ⟨_, shared, -⟩ := h
  exact shared.isLocalText

/-- Brackets around a text for values. -/
theorem IsValueText.grouped (h : IsValueText t) : IsValuePart false (Regex.grouped t) := by
  obtain ⟨L, shared, closes⟩ := h
  exact ⟨L, fun d => (shared d).writes_grouped, closes⟩

/-- Brackets around a text that has been read. -/
theorem isValuePart_grouped_of_readsAsValue (h : readsAsValue t) :
    IsValuePart false (Regex.grouped t) := by
  rw [readsAsValue] at h
  split at h
  · rename_i r r' extended plain
    simp only [Bool.and_eq_true, beq_iff_eq, Bool.not_eq_true', List.isEmpty_iff,
      List.contains_eq_mem, decide_eq_false_iff_not] at h
    obtain ⟨⟨⟨⟨⟨rfl, loc⟩, unnamed⟩, fills⟩, closes⟩, -⟩ := h
    refine ⟨r.language, fun d => ?_, fun w hw =>
      ⟨ne_nil_of_mem_language loc fills hw, endsBlank_of_mem_language loc closes hw⟩⟩
    have read : read? d t = some r := by
      cases d
      · exact plain
      · exact extended
    exact writes_grouped_of_read? read loc unnamed
  · cases h

namespace IsValuePart

theorem text (h : IsValuePart firm t) : IsValueText t := by
  obtain ⟨L, writes, closes⟩ := h
  exact ⟨L, fun d => (writes d).loosen.body, closes⟩

theorem exists_writes (h : IsValuePart firm t) : ∃ L, ∀ d, Writes firm d t L := by
  obtain ⟨L, writes, -⟩ := h
  exact ⟨L, writes⟩

/-- Anything may stand in front. -/
theorem after (h : IsValuePart firm u) (front : ∀ d, Writes firm d t L) : IsValuePart firm (t ++ u) := by
  obtain ⟨M, writes, closes⟩ := h
  exact ⟨L * M, fun d => (front d).append (writes d), closes.mul L⟩

theorem append (h : IsValuePart firm t) (h' : IsValuePart firm u) : IsValuePart firm (t ++ u) := by
  obtain ⟨L, front, -⟩ := h
  exact h'.after front

theorem cons {c : Char} (h : IsValuePart firm t) (sign : ∀ d, WritesAtom d [c] L) :
    IsValuePart firm (c :: t) := h.after fun d => (sign d).writes

/-- Another part may stand behind. -/
theorem optional (h : IsValuePart firm t) (h' : IsValuePart true u) :
    IsValuePart firm (t ++ (Regex.grouped u ++ ['?'])) := by
  obtain ⟨L, front, closes⟩ := h
  obtain ⟨M, behind, closes'⟩ := h'
  exact ⟨L * (1 + M), fun d => (front d).append (behind d).body.grouped.optional,
    closes.mul_optional closes'⟩

/-- A piece that is there at least once. -/
theorem plus (h : ∀ d, WritesAtom d t L) (closes : ClosesInInk L) : IsValuePart firm (t ++ ['+']) :=
  ⟨_, fun d => (h d).quantified (step_plus d), closes.repeats Nat.one_pos none⟩

/-- A group that is there at least once. -/
theorem grouped_plus (h : IsValuePart true t) : IsValuePart firm (Regex.grouped t ++ ['+']) := by
  obtain ⟨L, writes, closes⟩ := h
  exact .plus (fun d => (writes d).body.grouped) closes

end IsValuePart

/-- Alternatives for values. -/
theorem isValueText_alternatives {ts : List Text} (ne : ts ≠ []) (each : ∀ t ∈ ts, IsValueText t) :
    IsValueText (alternatives ts) := by
  obtain ⟨t, ts, rfl⟩ := List.exists_cons_of_ne_nil ne
  clear ne
  induction ts generalizing t with
  | nil => simpa [alternatives, Text.joinWith] using each
  | cons u us ih =>
    obtain ⟨⟨L, shared, closes⟩, rest⟩ := List.forall_mem_cons.1 each
    obtain ⟨M, shared', closes'⟩ := ih u rest
    exact ⟨L + M, fun d => by simpa [alternatives, Text.joinWith] using (shared d).bar (shared' d),
      closes.add closes'⟩

section Digits

variable {n : Nat}

theorem closesInInk_digit : ClosesInInk (ofSet .digit) := .ofSet (by decide)

theorem isValuePart_digits (pos : 0 < n) (few : n < 10) : IsValuePart true (digits n) :=
  ⟨_, fun d => writes_digits d few, closesInInk_digit.repeats pos _⟩

theorem isValuePart_digitsUpTo (pos : 0 < n) (few : n < 10) : IsValuePart true (digitsUpTo n) :=
  ⟨_, fun d => writes_digitsUpTo d pos few, closesInInk_digit.repeats Nat.one_pos _⟩

end Digits

end Regex
end StepMatch
