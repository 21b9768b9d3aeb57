import StepMatch.Proofs.Regex.Literals

/-!
# Counts in braces

A count is read up to the brace that closes it, and then applies to the piece in front of it. Runs of
digits are written with counts.
-/

namespace StepMatch.Regex

/-- In braces, the text is read as a count with these limits. -/
def IsCount (d : Dialect) (t : Text) (low : Nat) (high : Option Nat) : Prop :=
  (∀ u ∈ t.inits, isStartOfCount u = true) ∧ '}' ∉ t ∧ d.limits? t = some (low, high) ∧
    high.all (low ≤ ·) = true

instance (d : Dialect) (t : Text) (low : Nat) (high : Option Nat) : Decidable (IsCount d t low high) :=
  inferInstanceAs (Decidable (_ ∧ _))

variable {d : Dialect} {s : State} {t : Text} {low n : Nat} {high : Option Nat}

theorem IsCount.foldlM (h : IsCount d t low high) (plain : s.mode = .plain)
    (piece : s.inner.target = .piece) :
    ('{' :: t ++ ['}']).foldlM (State.step d) s = s.quantify low high := by
  obtain ⟨starts, inside, limits, ordered⟩ := h
  have opened : State.step d s '{' = some { s with mode := .count [] } := by
    simp only [State.step, plain, State.readPlain, State.openBrace, piece]
  have run (u v : Text) (e : u ++ v = t) :
      v.foldlM (State.step d) { s with mode := .count u } = some { s with mode := .count t } := by
    induction v generalizing u with
    | nil =>
      rw [← e, List.append_nil]
      rfl
    | cons c v ih =>
      have e' : u ++ [c] ++ v = t := by simpa using e
      have start : isStartOfCount (u ++ [c]) = true := starts _ ((List.mem_inits _ _).2 ⟨v, e'⟩)
      have other : c ≠ '}' := fun same => inside (by simp [← e, same])
      have next : State.step d { s with mode := .count u } c =
          some { s with mode := .count (u ++ [c]) } := by
        simp [State.step, State.readCount, other, start]
      rw [List.foldlM_cons, next]
      exact ih (u ++ [c]) e'
  rw [List.cons_append, List.foldlM_cons, opened]
  refine (State.foldlM_append (run [] t rfl) ['}']).trans ?_
  rw [List.foldlM_cons]
  simp [State.step, State.readCount, limits, ordered, State.quantify]

theorem writesAtom_digit (d : Dialect) : WritesAtom d ['\\', 'd'] (ofSet .digit) :=
  .ofSet (.ofState fun s plain => by
    obtain ⟨mode, inner, outer, names⟩ := s
    cases plain
    rfl)

/-- A fixed number of digits. -/
theorem writes_digits (d : Dialect) (h : n < 10) :
    Writes true d (digits n) (repeats n (some n) (ofSet .digit)) := by
  have each : ∀ n < 10, ∀ d ∈ [Dialect.plain, .extended], IsCount d (number n) n (some n) := by
    decide +kernel
  have count : IsCount d (number n) n (some n) := each n h d (by cases d <;> simp)
  exact (writesAtom_digit d).quantifiedBy fun s => count.foldlM

/-- One digit or more, up to a fixed number. -/
theorem writes_digitsUpTo (d : Dialect) (pos : 0 < n) (h : n < 10) :
    Writes true d (digitsUpTo n) (repeats 1 n (ofSet .digit)) := by
  have each : ∀ n < 10, 0 < n → ∀ d ∈ [Dialect.plain, .extended],
      IsCount d ('1' :: ',' :: number n) 1 n := by
    decide +kernel
  have count : IsCount d ('1' :: ',' :: number n) 1 n := each n h pos d (by cases d <;> simp)
  exact (writesAtom_digit d).quantifiedBy fun s => count.foldlM

end StepMatch.Regex
