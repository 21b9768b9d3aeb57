import StepMatch.Proofs.Regex.Writes

/-!
# Literal text and blanks

The smallest texts from which patterns and phrases are put together, with the languages that they
write: escaped characters, blanks, any text within a line.
-/

namespace StepMatch.Regex

/-- Some blanks, at least one. -/
def spaces : TextLanguage := {w | w ≠ [] ∧ ∀ c ∈ w, isBlank c}

/-- Some blanks or none. -/
def slack : TextLanguage := {w | ∀ c ∈ w, isBlank c}

/-- A run of characters without blanks, at least one. -/
def inked : TextLanguage := {w | w ≠ [] ∧ ∀ c ∈ w, isInk c}

/-- Any text within a line. -/
def line : TextLanguage := {w | ∀ c ∈ w, c ≠ '\n'}

variable {firm : Bool} {d : Dialect} {s : State} {t : Text} {L : TextLanguage} {c : Char}

theorem mem_ofSet_pow {set : CharSet} {n : Nat} {w : Text} :
    w ∈ ofSet set ^ n ↔ w.length = n ∧ ∀ c ∈ w, set.contains false c := by
  induction n generalizing w with
  | zero => rw [pow_zero, Language.mem_one, List.length_eq_zero_iff]; aesop
  | succ n ih =>
    rw [pow_succ', Language.mem_mul]
    constructor
    · rintro ⟨_, ⟨c, hc, rfl⟩, v, hv, rfl⟩
      obtain ⟨len, all⟩ := ih.1 hv
      exact ⟨by simp [len], by simpa [hc] using all⟩
    · rintro ⟨len, all⟩
      obtain _ | ⟨c, v⟩ := w
      · simp at len
      · exact ⟨[c], ⟨c, all c List.mem_cons_self, rfl⟩, v,
          ih.2 ⟨by simpa using len, fun c hc => all c (List.mem_cons_of_mem _ hc)⟩, rfl⟩

/-- A character of a set any number of times, at least `low`. -/
theorem mem_repeats_ofSet {set : CharSet} {low : Nat} {w : Text} :
    w ∈ repeats low none (ofSet set) ↔ low ≤ w.length ∧ ∀ c ∈ w, set.contains false c := by
  constructor
  · rintro ⟨n, ge, -, hw⟩
    obtain ⟨rfl, all⟩ := mem_ofSet_pow.1 hw
    exact ⟨ge, all⟩
  · rintro ⟨ge, all⟩
    exact ⟨w.length, ge, by simp, mem_ofSet_pow.2 ⟨rfl, all⟩⟩

/-- A character of a set any number of times within limits. -/
theorem mem_repeats_some_ofSet {set : CharSet} {low high : Nat} (le : low ≤ high) {w : Text} :
    w ∈ repeats low high (ofSet set) ↔
      low ≤ w.length ∧ w.length ≤ high ∧ ∀ c ∈ w, set.contains false c := by
  constructor
  · rintro ⟨n, ge, most, hw⟩
    obtain ⟨rfl, all⟩ := mem_ofSet_pow.1 hw
    exact ⟨ge, max_eq_right le ▸ most high rfl, all⟩
  · rintro ⟨ge, most, all⟩
    exact ⟨w.length, ge, fun h hh => Option.some.inj hh ▸ most.trans (le_max_right low high),
      mem_ofSet_pow.2 ⟨rfl, all⟩⟩

/-- A word or none. -/
theorem repeats_optional (L : TextLanguage) : repeats 0 (some 1) L = 1 + L := by
  refine Language.ext fun w => ?_
  rw [Language.mem_add]
  constructor
  · rintro ⟨n, -, le, hw⟩
    have : n ≤ 1 := by simpa using le 1 rfl
    obtain rfl | rfl : n = 0 ∨ n = 1 := by omega
    · exact .inl (pow_zero L ▸ hw)
    · exact .inr (pow_one L ▸ hw)
  · rintro (hw | hw)
    · exact ⟨0, Nat.le_refl 0, by simp, (pow_zero L).symm ▸ hw⟩
    · exact ⟨1, Nat.zero_le 1, by simp, (pow_one L).symm ▸ hw⟩

theorem singleton_mul_singleton (u v : Text) :
    ({u} : TextLanguage) * {v} = {u ++ v} := by
  ext w
  rw [Language.mem_mul]
  constructor
  · rintro ⟨_, rfl, _, rfl, rfl⟩
    rfl
  · rintro rfl
    exact ⟨u, rfl, v, rfl, rfl⟩

theorem ofSet_single (c : Char) : ofSet (.single c) = {[c]} := by
  ext w
  constructor
  · rintro ⟨c', hc, rfl⟩
    have : c' = c := by simpa [CharSet.contains] using hc
    exact this ▸ rfl
  · rintro rfl
    exact ⟨c, by simp [CharSet.contains], rfl⟩

/-- What each sign with a meaning of its own means after a backslash. -/
theorem escape_of_isMeta (d : Dialect) (h : isMeta c) : Escape.of? d c = some (.literal c) := by
  simp only [isMeta, Bool.or_eq_true, beq_iff_eq] at h
  obtain ((((((((((((((((h | h) | h) | h) | h) | h) | h) | h) | h) | h) | h) | h) | h) | h) | h) |
    h) | h) | h := h <;> subst h <;> rfl

theorem readPlain_of_not_isMeta (h : isMeta c = false) : State.readPlain d s c = some (s.literal c) := by
  simp only [isMeta, Bool.or_eq_false_iff, beq_eq_false_iff_ne] at h
  unfold State.readPlain
  split <;> first | rfl | simp at h

theorem foldlM_escapeChar (plain : s.mode = .plain) (c : Char) :
    (escapeChar c).foldlM (State.step d) s = some (s.pushSet (.single c)) := by
  obtain ⟨mode, inner, outer, names⟩ := s
  cases plain
  by_cases h : isMeta c
  · rw [escapeChar, if_pos h]
    simp only [List.foldlM_cons, List.foldlM_nil, State.step, State.readPlain, escape_of_isMeta d h]
    rfl
  · rw [escapeChar, if_neg h]
    simp only [List.foldlM_cons, List.foldlM_nil, State.step,
      readPlain_of_not_isMeta (Bool.eq_false_iff.2 h)]
    rfl

theorem addsAtom_escapeChar (d : Dialect) (c : Char) :
    AddsAtom d (escapeChar c) (· = .chars false (.single c)) :=
  .ofState fun _ plain => foldlM_escapeChar plain c

theorem writesAtom_escapeChar (d : Dialect) (c : Char) : WritesAtom d (escapeChar c) {[c]} :=
  ofSet_single c ▸ .ofSet (addsAtom_escapeChar d c)

theorem writes_escape (d : Dialect) : ∀ {w : Text}, w ≠ [] → Writes true d (escape w) {w}
  | [c], _ => by
    rw [escape, List.flatMap_singleton]
    exact (writesAtom_escapeChar d c).writes
  | c :: c' :: w, _ => by
    have h := (writesAtom_escapeChar d c).writes |>.append
      (writes_escape d (List.cons_ne_nil c' w))
    rw [singleton_mul_singleton] at h
    exact h

theorem foldlM_blank (plain : s.mode = .plain) :
    ['\\', 's'].foldlM (State.step d) s = some (s.pushSet .blank) := by
  obtain ⟨mode, inner, outer, names⟩ := s
  cases plain
  rfl

theorem addsAtom_blank (d : Dialect) : AddsAtom d ['\\', 's'] (· = .chars false .blank) :=
  .ofState fun _ plain => foldlM_blank plain

theorem writesAtom_blank (d : Dialect) : WritesAtom d ['\\', 's'] (ofSet .blank) :=
  .ofSet (addsAtom_blank d)

theorem addsAtom_ink (d : Dialect) :
    AddsAtom d ['\\', 'S'] (· = .chars false (.complement .blank)) :=
  .ofState fun s plain => by
    obtain ⟨mode, inner, outer, names⟩ := s
    cases plain
    rfl

theorem addsAtom_dot (d : Dialect) : AddsAtom d ['.'] (· = .chars false .inLine) :=
  .ofState fun s plain => by
    obtain ⟨mode, inner, outer, names⟩ := s
    cases plain
    rfl

theorem writesAtom_dot (d : Dialect) : WritesAtom d ['.'] (ofSet .inLine) :=
  .ofSet (addsAtom_dot d)

theorem step_star (d : Dialect) (s : State) (plain : s.mode = .plain) :
    State.step d s '*' = s.quantify 0 none := by
  obtain ⟨mode, inner, outer, names⟩ := s
  cases plain
  rfl

theorem step_plus (d : Dialect) (s : State) (plain : s.mode = .plain) :
    State.step d s '+' = s.quantify 1 none := by
  obtain ⟨mode, inner, outer, names⟩ := s
  cases plain
  rfl

theorem step_question (d : Dialect) (s : State) (plain : s.mode = .plain) :
    State.step d s '?' = s.quantify 0 (some 1) := by
  obtain ⟨mode, inner, outer, names⟩ := s
  cases plain
  rfl

theorem repeats_blank : repeats 1 none (ofSet .blank) = spaces := Language.ext fun w => by
  rw [mem_repeats_ofSet, Nat.one_le_iff_ne_zero, ne_eq, List.length_eq_zero_iff]
  rfl

theorem writes_blanks (d : Dialect) : Writes true d blanks spaces :=
  repeats_blank ▸ (writesAtom_blank d).quantified (step_plus d)

theorem writes_slack (d : Dialect) : Writes true d ['\\', 's', '*'] slack := by
  have e : repeats 0 none (ofSet .blank) = slack := Language.ext fun w => by
    simp only [mem_repeats_ofSet, Nat.zero_le, true_and]
    rfl
  exact e ▸ (writesAtom_blank d).quantified (step_star d)

theorem repeats_ink : repeats 1 none (ofSet (.complement .blank)) = inked := Language.ext fun w => by
  rw [mem_repeats_ofSet, Nat.one_le_iff_ne_zero, ne_eq, List.length_eq_zero_iff]
  rfl

theorem repeats_inLine : repeats 0 none (ofSet .inLine) = line := Language.ext fun w => by
  simp only [mem_repeats_ofSet, Nat.zero_le, true_and, CharSet.inLine, CharSet.contains,
    Bool.not_eq_true', Bool.false_eq_true, if_false, beq_eq_false_iff_ne]
  rfl

theorem writes_anyText (d : Dialect) : Writes true d ['.', '*'] line :=
  repeats_inLine ▸ (writesAtom_dot d).quantified (step_star d)

/-- An optional piece. -/
theorem WritesAtom.optional (h : WritesAtom d t L) : Writes firm d (t ++ ['?']) (1 + L) :=
  repeats_optional L ▸ h.quantified (step_question d)

end StepMatch.Regex
