import Mathlib.Computability.Language
import StepMatch.Regex.Search

/-!
# What a regex matches

`Regex.Spans` says which stretches of a text a regex matches, and what its named groups take there,
without a word on preferences. It is the relation that a search is measured by. A regex that looks
neither at the edges of the text nor ahead has a `language`, and the stretches that it matches are
the words of that language, wherever they stand.
-/

/-- A set of texts; the sum of two is their union, and the product puts one after the other. -/
abbrev TextLanguage := Language Char

namespace StepMatch.Regex

/-- What named groups took, in order. -/
abbrev Captures := List (Text × Text)

namespace Place

/-- Reading `w` leads from one place to the other. -/
def Reads (p : Place) (w : Text) (q : Place) : Prop :=
  p.rest = w ++ q.rest ∧ q.offset = p.offset + w.length

/-- The text from one place up to the other. -/
def textTo (p q : Place) : Text := p.rest.take (q.offset - p.offset)

variable {p q m q' : Place} {u v w : Text}

theorem Reads.refl (p : Place) : p.Reads [] p := ⟨rfl, rfl⟩

theorem Reads.trans (h : p.Reads u m) (h' : m.Reads v q) : p.Reads (u ++ v) q := by
  refine ⟨by rw [h.1, h'.1, List.append_assoc], ?_⟩
  rw [h'.2, h.2, List.length_append, Nat.add_assoc]

theorem Reads.textTo_eq (h : p.Reads w q) : p.textTo q = w := by
  rw [textTo, h.1, h.2, Nat.add_sub_cancel_left, List.take_left]

theorem Reads.offset_le (h : p.Reads w q) : p.offset ≤ q.offset := by
  rw [h.2]; exact Nat.le_add_right _ _

theorem Reads.length_add (h : p.Reads w q) :
    p.offset + p.rest.length = q.offset + q.rest.length := by
  rw [h.1, h.2, List.length_append, Nat.add_assoc]

/-- How far a place is determines it among those that can be reached. -/
theorem Reads.unique (h : p.Reads u q) (h' : p.Reads v q') (same : q.offset = q'.offset) :
    q = q' := by
  have len : u.length = v.length := by
    have := h.2; have := h'.2; omega
  obtain ⟨-, rest⟩ := List.append_inj (h.1.symm.trans h'.1) len
  cases q; cases q'; simp_all

theorem Reads.eq_of_offset_eq (h : p.Reads w q) (same : q.offset = p.offset) : q = p :=
  h.unique (.refl p) same

theorem reads_append_iff : p.Reads (u ++ v) q ↔ ∃ m, p.Reads u m ∧ m.Reads v q := by
  constructor
  · rintro ⟨rest, offset⟩
    refine ⟨⟨p.offset + u.length, v ++ q.rest⟩, ⟨by rw [rest, List.append_assoc], rfl⟩, rfl, ?_⟩
    rw [offset, List.length_append, Nat.add_assoc]
  · rintro ⟨m, hu, hv⟩
    exact hu.trans hv

theorem reads_nil_iff : p.Reads [] q ↔ q = p := by
  constructor
  · intro h
    exact h.eq_of_offset_eq h.2
  · rintro rfl
    exact .refl _

end Place

/-- A relation between the places where a stretch begins and ends and what was captured in it. -/
abbrev Step := Place → Place → Captures → Prop

namespace Step

/-- Nothing at all. -/
def stay : Step := fun p q cs => q = p ∧ cs = []

/-- One stretch after the other. -/
def comp (R S : Step) : Step := fun p q cs =>
  ∃ m cs₁ cs₂, R p m cs₁ ∧ S m q cs₂ ∧ cs = cs₁ ++ cs₂

/-- One stretch or the other. -/
def union (R S : Step) : Step := fun p q cs => R p q cs ∨ S p q cs

/-- `n` stretches, one after the other. -/
def power (R : Step) : Nat → Step
  | 0 => stay
  | n + 1 => R.comp (R.power n)

/-- Any number of stretches, one after the other. -/
def star (R : Step) : Step := fun p q cs => ∃ n, R.power n p q cs

/-- Whether a stretch leads from one place to the other, whatever is captured. -/
def Links (R : Step) (p q : Place) : Prop := ∃ cs, R p q cs

/-- Every stretch reads some text. -/
def Advances (R : Step) : Prop := ∀ ⦃p q cs⦄, R p q cs → ∃ w, p.Reads w q

variable {R S : Step} {p q m : Place}

theorem stay_advances : stay.Advances := by
  rintro p q cs ⟨rfl, -⟩
  exact ⟨[], .refl q⟩

theorem Advances.comp (hR : R.Advances) (hS : S.Advances) : (R.comp S).Advances := by
  rintro p q cs ⟨m, cs₁, cs₂, h, h', -⟩
  obtain ⟨u, hu⟩ := hR h
  obtain ⟨v, hv⟩ := hS h'
  exact ⟨u ++ v, hu.trans hv⟩

theorem Advances.union (hR : R.Advances) (hS : S.Advances) : (R.union S).Advances := by
  rintro p q cs (h | h)
  · exact hR h
  · exact hS h

theorem Advances.power (hR : R.Advances) : ∀ n, (R.power n).Advances
  | 0 => stay_advances
  | n + 1 => hR.comp (hR.power n)

theorem Advances.star (hR : R.Advances) : R.star.Advances := by
  rintro p q cs ⟨n, h⟩
  exact hR.power n h

theorem stay_comp (R : Step) : stay.comp R = R := by
  funext p q cs
  refine propext ⟨?_, fun h => ⟨p, [], cs, ⟨rfl, rfl⟩, h, rfl⟩⟩
  rintro ⟨m, cs₁, cs₂, ⟨rfl, rfl⟩, h, rfl⟩
  exact h

theorem comp_stay (R : Step) : R.comp stay = R := by
  funext p q cs
  refine propext ⟨?_, fun h => ⟨q, cs, [], h, ⟨rfl, rfl⟩, by simp⟩⟩
  rintro ⟨m, cs₁, cs₂, h, ⟨rfl, rfl⟩, rfl⟩
  simpa using h

theorem comp_assoc (R S T : Step) : (R.comp S).comp T = R.comp (S.comp T) := by
  funext p q cs
  apply propext
  constructor
  · rintro ⟨m, _, ct, ⟨l, cr, cs, hr, hs, rfl⟩, ht, rfl⟩
    exact ⟨l, cr, cs ++ ct, hr, ⟨m, cs, ct, hs, ht, rfl⟩, List.append_assoc _ _ _⟩
  · rintro ⟨l, cr, _, hr, ⟨m, cs, ct, hs, ht, rfl⟩, rfl⟩
    exact ⟨m, cr ++ cs, ct, ⟨l, cr, cs, hr, hs, rfl⟩, ht, (List.append_assoc _ _ _).symm⟩

theorem power_add (R : Step) (n k : Nat) : R.power (n + k) = (R.power n).comp (R.power k) := by
  induction n with
  | zero => rw [Nat.zero_add]; exact (stay_comp _).symm
  | succ n ih => rw [Nat.succ_add, power, power, ih, comp_assoc]

/-- Where nothing is captured in one stretch, nothing is in several. -/
theorem captures_of_power {cs : Captures} (h : ∀ p q cs, R p q cs → cs = []) {n : Nat}
    (span : R.power n p q cs) : cs = [] := by
  induction n generalizing p cs with
  | zero => exact span.2
  | succ n ih =>
    obtain ⟨m, cs₁, cs₂, first, later, rfl⟩ := span
    rw [h _ _ _ first, ih later, List.append_nil]

theorem power_one (R : Step) : R.power 1 = R := comp_stay R

theorem star_eq (R : Step) : R.star = union stay (R.comp R.star) := by
  funext p q cs
  apply propext
  constructor
  · rintro ⟨_ | n, h⟩
    · exact .inl h
    · obtain ⟨m, cs₁, cs₂, h, h', e⟩ := h
      exact .inr ⟨m, cs₁, cs₂, h, ⟨n, h'⟩, e⟩
  · rintro (h | ⟨m, cs₁, cs₂, h, ⟨n, h'⟩, e⟩)
    · exact ⟨0, h⟩
    · exact ⟨n + 1, m, cs₁, cs₂, h, h', e⟩

@[simp] theorem links_stay : stay.Links p q ↔ q = p := by
  constructor
  · rintro ⟨_, h, _⟩
    exact h
  · rintro rfl
    exact ⟨[], rfl, rfl⟩

@[simp] theorem links_comp : (R.comp S).Links p q ↔ ∃ m, R.Links p m ∧ S.Links m q := by
  constructor
  · rintro ⟨_, m, cs₁, cs₂, h, h', -⟩
    exact ⟨m, ⟨cs₁, h⟩, cs₂, h'⟩
  · rintro ⟨m, ⟨cs₁, h⟩, cs₂, h'⟩
    exact ⟨cs₁ ++ cs₂, m, cs₁, cs₂, h, h', rfl⟩

@[simp] theorem links_union : (R.union S).Links p q ↔ R.Links p q ∨ S.Links p q := by
  simp only [Links, union, exists_or]

theorem Links.star_refl (R : Step) (p : Place) : R.star.Links p p := ⟨[], 0, rfl, rfl⟩

theorem Links.star_head (h : R.Links p m) (h' : R.star.Links m q) : R.star.Links p q := by
  rw [star_eq, links_union, links_comp]
  exact .inr ⟨m, h, h'⟩

theorem Links.star_trans (h : R.star.Links p m) (h' : R.star.Links m q) : R.star.Links p q := by
  obtain ⟨cs₁, n, h⟩ := h
  obtain ⟨cs₂, k, h'⟩ := h'
  exact ⟨cs₁ ++ cs₂, n + k, by rw [power_add]; exact ⟨m, cs₁, cs₂, h, h', rfl⟩⟩

theorem Links.star_tail (h : R.star.Links p m) (h' : R.Links m q) : R.star.Links p q :=
  h.star_trans (h'.star_head (.star_refl R q))

/-- What holds at the start and is kept by one stretch holds after any number of them. -/
theorem Links.star_induction {P : Place → Prop} (h : R.star.Links p q) (start : P p)
    (next : ∀ m q, P m → R.Links m q → P q) : P q := by
  obtain ⟨cs, n, h⟩ := h
  induction n generalizing p cs with
  | zero => exact h.1 ▸ start
  | succ n ih =>
    obtain ⟨m, cs₁, cs₂, h, h', -⟩ := h
    exact ih (next p m start ⟨cs₁, h⟩) cs₂ h'

end Step

/-- The stretches that a regex matches, with what its named groups take. Looking ahead and fixing a
choice are not stretches of their own. -/
def Spans : Regex → Step
  | .empty => Step.stay
  | .chars fold s => fun p q cs =>
    ∃ c rest, p.rest = c :: rest ∧ s.contains fold c ∧ q = ⟨p.offset + 1, rest⟩ ∧ cs = []
  | .atStart => fun p q cs => p.offset = 0 ∧ q = p ∧ cs = []
  | .atEnd => fun p q cs => p.rest = [] ∧ q = p ∧ cs = []
  | .seq r s => r.Spans.comp s.Spans
  | .alt r s => r.Spans.union s.Spans
  | .repeated _ low high r => fun p q cs =>
    ∃ n, low ≤ n ∧ (∀ h, high = some h → n ≤ max low h) ∧ r.Spans.power n p q cs
  | .capture name r => fun p q cs =>
    ∃ inner, r.Spans p q inner ∧ cs = inner ++ [(name, p.textTo q)]
  | .ahead .. | .atomic _ => fun _ _ _ => False

theorem spans_advances (r : Regex) : r.Spans.Advances := by
  induction r with
  | empty => exact Step.stay_advances
  | chars fold s =>
    rintro p q cs ⟨c, rest, h, -, rfl, -⟩
    exact ⟨[c], h, rfl⟩
  | atStart =>
    rintro p q cs ⟨-, rfl, -⟩
    exact ⟨[], .refl q⟩
  | atEnd =>
    rintro p q cs ⟨-, rfl, -⟩
    exact ⟨[], .refl q⟩
  | seq r s ihr ihs => exact ihr.comp ihs
  | alt r s ihr ihs => exact ihr.union ihs
  | repeated greedy low high r ih =>
    rintro p q cs ⟨n, -, -, h⟩
    exact ih.power n h
  | capture name r ih =>
    rintro p q cs ⟨inner, h, -⟩
    exact ih h
  | ahead wanted r => exact fun _ _ _ h => h.elim
  | atomic r => exact fun _ _ _ h => h.elim

/-- What cannot match nothing takes a character. -/
theorem Spans.moves {r : Regex} (h : r.nullable = false) {p q : Place} {cs : Captures}
    (span : r.Spans p q cs) : p.offset < q.offset := by
  induction r generalizing p q cs with
  | empty => simp [nullable] at h
  | chars fold s =>
    obtain ⟨c, rest, -, -, rfl, -⟩ := span
    exact Nat.lt_succ_self _
  | atStart => simp [nullable] at h
  | atEnd => simp [nullable] at h
  | seq r s ihr ihs =>
    obtain ⟨m, cs₁, cs₂, hr, hs, -⟩ := span
    obtain ⟨u, hu⟩ := spans_advances r hr
    obtain ⟨v, hv⟩ := spans_advances s hs
    rcases Bool.and_eq_false_iff.1 h with h | h
    · exact Nat.lt_of_lt_of_le (ihr h hr) hv.offset_le
    · exact Nat.lt_of_le_of_lt hu.offset_le (ihs h hs)
  | alt r s ihr ihs =>
    obtain ⟨nr, ns⟩ := Bool.or_eq_false_iff.1 h
    rcases span with span | span
    · exact ihr nr span
    · exact ihs ns span
  | repeated greedy low high r ih =>
    obtain ⟨nl, nr⟩ := Bool.or_eq_false_iff.1 h
    obtain ⟨_ | n, le, -, span⟩ := span
    · simp at nl; omega
    · obtain ⟨m, cs₁, cs₂, first, later, -⟩ := span
      obtain ⟨v, hv⟩ := (spans_advances r).power n later
      exact Nat.lt_of_lt_of_le (ih nr first) hv.offset_le
  | capture name r ih =>
    obtain ⟨inner, span, -⟩ := span
    exact ih h span
  | ahead wanted r => exact span.elim
  | atomic r => exact span.elim

/-- Whether a regex looks at what it takes only: not at the edges of the text, not ahead, and
without fixing a choice. -/
def isLocal : Regex → Bool
  | .empty | .chars .. => true
  | .seq r s | .alt r s => r.isLocal && s.isLocal
  | .repeated _ _ _ r | .capture _ r => r.isLocal
  | .atStart | .atEnd | .ahead .. | .atomic _ => false

/-- The names of the groups, in the order in which they close. -/
def groupNames : Regex → List Text
  | .seq r s | .alt r s => r.groupNames ++ s.groupNames
  | .repeated _ _ _ r | .ahead _ r | .atomic r => r.groupNames
  | .capture name r => r.groupNames ++ [name]
  | .empty | .chars .. | .atStart | .atEnd => []

/-- At least `low` words of a language, and at most `high` if there is such a limit. -/
def repeats (low : Nat) (high : Option Nat) (L : TextLanguage) : TextLanguage :=
  {w | ∃ n, low ≤ n ∧ (∀ h, high = some h → n ≤ max low h) ∧ w ∈ L ^ n}

/-- The texts that a local regex matches. What looks elsewhere has none. -/
def language : Regex → TextLanguage
  | .empty => 1
  | .chars fold s => {w | ∃ c, s.contains fold c ∧ w = [c]}
  | .seq r s => r.language * s.language
  | .alt r s => r.language + s.language
  | .repeated _ low high r => repeats low high r.language
  | .capture _ r => r.language
  | .atStart | .atEnd | .ahead .. | .atomic _ => 0

theorem isRegular_of_isLocal {r : Regex} (h : r.isLocal) : r.isRegular := by
  induction r with
  | seq r s ihr ihs | alt r s ihr ihs =>
    obtain ⟨hr, hs⟩ := Bool.and_eq_true_iff.1 h
    exact Bool.and_eq_true_iff.2 ⟨ihr hr, ihs hs⟩
  | repeated greedy low high r ih | capture name r ih => exact ih h
  | empty | chars | atStart | atEnd => rfl
  | ahead | atomic => simp [isLocal] at h

theorem links_power_iff {R : Step} {L : TextLanguage}
    (h : ∀ p q, R.Links p q ↔ ∃ w ∈ L, p.Reads w q) (n : Nat) (p q : Place) :
    (R.power n).Links p q ↔ ∃ w ∈ L ^ n, p.Reads w q := by
  induction n generalizing p with
  | zero => simp [Step.power, Language.mem_one, Place.reads_nil_iff]
  | succ n ih =>
    rw [Step.power, Step.links_comp, pow_succ']
    constructor
    · rintro ⟨m, first, later⟩
      obtain ⟨u, hu, pu⟩ := (h p m).1 first
      obtain ⟨v, hv, pv⟩ := (ih m).1 later
      exact ⟨u ++ v, Language.mem_mul.2 ⟨u, hu, v, hv, rfl⟩, pu.trans pv⟩
    · rintro ⟨w, hw, pw⟩
      obtain ⟨u, hu, v, hv, rfl⟩ := Language.mem_mul.1 hw
      obtain ⟨m, pu, pv⟩ := Place.reads_append_iff.1 pw
      exact ⟨m, (h p m).2 ⟨u, hu, pu⟩, (ih m).2 ⟨v, hv, pv⟩⟩

/-- A local regex matches the words of its language, wherever they stand. -/
theorem links_spans_iff {r : Regex} (h : r.isLocal) (p q : Place) :
    r.Spans.Links p q ↔ ∃ w ∈ r.language, p.Reads w q := by
  induction r generalizing p q with
  | empty => simp [Spans, language, Language.mem_one, Place.reads_nil_iff]
  | chars fold s =>
    constructor
    · rintro ⟨_, c, rest, e, hc, rfl, -⟩
      exact ⟨[c], ⟨c, hc, rfl⟩, e, rfl⟩
    · rintro ⟨_, ⟨c, hc, rfl⟩, e, offset⟩
      exact ⟨[], c, q.rest, e, hc, by cases q; simp_all, rfl⟩
  | atStart | atEnd | ahead | atomic => simp [isLocal] at h
  | seq r s ihr ihs =>
    obtain ⟨hr, hs⟩ := Bool.and_eq_true_iff.1 h
    simp only [Spans, Step.links_comp, ihr hr, ihs hs, language]
    constructor
    · rintro ⟨m, ⟨u, hu, pu⟩, v, hv, pv⟩
      exact ⟨u ++ v, Language.mem_mul.2 ⟨u, hu, v, hv, rfl⟩, pu.trans pv⟩
    · rintro ⟨w, hw, pw⟩
      obtain ⟨u, hu, v, hv, rfl⟩ := Language.mem_mul.1 hw
      obtain ⟨m, pu, pv⟩ := Place.reads_append_iff.1 pw
      exact ⟨m, ⟨u, hu, pu⟩, v, hv, pv⟩
  | alt r s ihr ihs =>
    obtain ⟨hr, hs⟩ := Bool.and_eq_true_iff.1 h
    simp only [Spans, Step.links_union, ihr hr, ihs hs, language, Language.mem_add, or_and_right,
      exists_or]
  | repeated greedy low high r ih =>
    have power := links_power_iff (fun p q => ih h p q)
    constructor
    · rintro ⟨cs, n, ge, le, span⟩
      obtain ⟨w, hw, pw⟩ := (power n p q).1 ⟨cs, span⟩
      exact ⟨w, ⟨n, ge, le, hw⟩, pw⟩
    · rintro ⟨w, ⟨n, ge, le, hw⟩, pw⟩
      obtain ⟨cs, span⟩ := (power n p q).2 ⟨w, hw, pw⟩
      exact ⟨cs, n, ge, le, span⟩
  | capture name r ih =>
    rw [language, ← ih h]
    constructor
    · rintro ⟨_, inner, span, -⟩
      exact ⟨inner, span⟩
    · rintro ⟨inner, span⟩
      exact ⟨_, inner, span, rfl⟩

/-- Without named groups nothing is captured. -/
theorem Spans.captures_eq_nil {r : Regex} (h : r.groupNames = []) {p q : Place} {cs : Captures}
    (span : r.Spans p q cs) : cs = [] := by
  induction r generalizing p q cs with
  | empty => exact span.2
  | chars fold s =>
    obtain ⟨_, _, -, -, -, rfl⟩ := span
    rfl
  | atStart | atEnd => exact span.2.2
  | seq r s ihr ihs =>
    obtain ⟨hr, hs⟩ := List.append_eq_nil_iff.1 h
    obtain ⟨m, cs₁, cs₂, first, later, rfl⟩ := span
    rw [ihr hr first, ihs hs later, List.append_nil]
  | alt r s ihr ihs =>
    obtain ⟨hr, hs⟩ := List.append_eq_nil_iff.1 h
    rcases span with span | span
    · exact ihr hr span
    · exact ihs hs span
  | repeated greedy low high r ih =>
    obtain ⟨n, -, -, span⟩ := span
    exact Step.captures_of_power (fun p q cs => ih h) span
  | capture name r => simp [groupNames] at h
  | ahead | atomic => exact span.elim

end StepMatch.Regex
