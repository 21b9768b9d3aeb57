import StepMatch.Proofs.Regex.Loop

/-!
# The ways of a regular regex

The parts of a regex are put together: `explored_ways` is the induction over the regex. Its fruit is
`spans_of_mem_outcomes` and `exists_outcome`: the outcomes of a regular regex are stretches that it
matches, with what its groups took there, and there is an outcome at the end of each stretch.
-/

namespace StepMatch.Regex

namespace Step

/-- At most `n` stretches, one after the other. -/
def atMost (R : Step) : Nat → Step
  | 0 => stay
  | n + 1 => (R.comp (R.atMost n)).union stay

variable {R : Step}

theorem Advances.atMost (hR : R.Advances) : ∀ n, (R.atMost n).Advances
  | 0 => stay_advances
  | n + 1 => (hR.comp (hR.atMost n)).union stay_advances

theorem atMost_iff {n : Nat} {p q : Place} {cs : Captures} :
    R.atMost n p q cs ↔ ∃ k ≤ n, R.power k p q cs := by
  induction n generalizing p q cs with
  | zero => simp [atMost, power]
  | succ n ih =>
    constructor
    · rintro (⟨m, cs₁, cs₂, first, later, rfl⟩ | h)
      · obtain ⟨k, le, later⟩ := ih.1 later
        exact ⟨k + 1, by omega, m, cs₁, cs₂, first, later, rfl⟩
      · exact ⟨0, by omega, h⟩
    · rintro ⟨_ | k, le, h⟩
      · exact .inr h
      · obtain ⟨m, cs₁, cs₂, first, later, rfl⟩ := h
        exact .inl ⟨m, cs₁, cs₂, first, ih.2 ⟨k, by omega, later⟩, rfl⟩

/-- `low` stretches and at most `rest` more. -/
theorem comp_atMost (R : Step) (low rest : Nat) :
    (R.power low).comp (R.atMost rest) =
      fun p q cs => ∃ n, low ≤ n ∧ n ≤ low + rest ∧ R.power n p q cs := by
  funext p q cs
  apply propext
  constructor
  · rintro ⟨m, cs₁, cs₂, first, later, rfl⟩
    obtain ⟨k, le, later⟩ := atMost_iff.1 later
    exact ⟨low + k, by omega, by omega, by
      rw [power_add]; exact ⟨m, cs₁, cs₂, first, later, rfl⟩⟩
  · rintro ⟨n, ge, le, span⟩
    obtain ⟨k, rfl⟩ := Nat.exists_eq_add_of_le ge
    rw [power_add] at span
    obtain ⟨m, cs₁, cs₂, first, later, rfl⟩ := span
    exact ⟨m, cs₁, cs₂, first, atMost_iff.2 ⟨k, by omega, later⟩, rfl⟩

theorem comp_star_iff {n : Nat} {p q : Place} {cs : Captures} :
    (R.power n).comp R.star p q cs ↔ ∃ k, n ≤ k ∧ R.power k p q cs := by
  constructor
  · rintro ⟨m, cs₁, cs₂, first, ⟨k, later⟩, rfl⟩
    exact ⟨n + k, by omega, by rw [power_add]; exact ⟨m, cs₁, cs₂, first, later, rfl⟩⟩
  · rintro ⟨k, le, h⟩
    obtain ⟨k, rfl⟩ := Nat.exists_eq_add_of_le le
    rw [power_add] at h
    obtain ⟨m, cs₁, cs₂, first, later, rfl⟩ := h
    exact ⟨m, cs₁, cs₂, first, ⟨k, later⟩, rfl⟩

end Step

variable {tracked greedy : Bool} {a : Address} {R S : Step} {body : Nat → Path → List Path}
  {last : Path → List Path} {O : Nat → Address → Prop} {P : Address → Prop}

theorem times_succ (body : Nat → Path → List Path) (last : Path → List Path) (n : Nat) :
    times body last (n + 1) =
      times (fun copy => body (copy + 1)) (fun p => follow (body 0 p) last) n := by
  induction n with
  | zero => rfl
  | succ n ih =>
    funext p
    rw [times, ih, times]

namespace Explored

theorem times (hb : ∀ copy, Explored tracked (body copy) R (O copy))
    (hl : Explored tracked last S P) (hR : R.Advances) (hS : S.Advances)
    (apart : ∀ i j a, O i a → O j a → i = j) (beside : ∀ i a, O i a → ¬ P a) (n : Nat) :
    Explored tracked (Regex.times body last n) ((R.power n).comp S)
      fun a => (∃ copy < n, O copy a) ∨ P a := by
  induction n with
  | zero =>
    rw [Step.power, Step.stay_comp]
    exact hl.mono fun a => .inr
  | succ n ih =>
    have h := (hb n).comp ih hR ((hR.power n).comp hS) fun a own => by
      rintro (⟨copy, lt, other⟩ | other)
      · exact absurd (apart _ _ _ own other) (by omega)
      · exact beside _ _ own other
    rw [← Step.comp_assoc] at h
    refine h.mono fun a => ?_
    rintro (own | ⟨copy, lt, own⟩ | own)
    · exact .inl ⟨n, by omega, own⟩
    · exact .inl ⟨copy, by omega, own⟩
    · exact .inr own

theorem upTo (greedy forked : Bool) (fork : Nat → Address)
    (hb : ∀ copy, Explored tracked (body copy) R (O copy)) (hR : R.Advances)
    (apart : ∀ i j a, O i a → O j a → i = j) (beside : ∀ i j, ¬ O i (fork j))
    (inj : ∀ i j, fork i = fork j → i = j) (n : Nat) :
    Explored tracked
      (Regex.upTo greedy (fun copy p => if forked then p.passFork? (fork copy) else some p) body n)
      (R.atMost n) fun a => ∃ copy < n, O copy a ∨ a = fork copy := by
  induction n with
  | zero => exact stay.mono fun a no => no.elim
  | succ n ih =>
    have again := (hb n).comp ih hR (hR.atMost n) fun a own => by
      rintro ⟨copy, lt, other | rfl⟩
      · exact absurd (apart _ _ _ own other) (by omega)
      · exact beside _ _ own
    have once := (again.prefer greedy (hR.comp (hR.atMost n))).behind forked
      (a := fork n) <| by
        rintro (own | ⟨copy, lt, other | e⟩)
        · exact beside _ _ own
        · exact beside _ _ other
        · exact absurd (inj _ _ e) (by omega)
    refine once.mono fun a => ?_
    rintro (rfl | own | ⟨copy, lt, own⟩)
    · exact ⟨n, by omega, .inr rfl⟩
    · exact ⟨n, by omega, .inl own⟩
    · exact ⟨copy, by omega, own⟩

/-- At the end of a repetition that stands in no other one the forks are forgotten. -/
theorem forget {f : Path → List Path} (hf : Explored tracked f R P) (hR : R.Advances) :
    Explored false (fun p => addAll [] ((f p).map Path.untracked)) R P := by
  obtain ⟨resume, hf⟩ := hf
  have origin {p q : Path} (hq : q ∈ addAll [] ((f p).map Path.untracked)) :
      ∃ r ∈ f p, r.untracked = q :=
    List.mem_map.1 ((mem_of_mem_addAll hq).resolve_left List.not_mem_nil)
  refine ⟨resume, fun hq => ?_, fun hq ha => ?_, fun {p j} hj => ?_, fun e => by cases e⟩
  · obtain ⟨r, hr, rfl⟩ := origin hq
    exact hf.sound (q := r) hr
  · obtain ⟨r, -, rfl⟩ := origin hq
    exact absurd ha List.not_mem_nil
  · refine (hf.complete hj).imp_left fun ⟨r, hr, e⟩ => ?_
    obtain ⟨q, hq, same⟩ := exists_mem_addAll (List.mem_map_of_mem hr)
    obtain ⟨l, hl, rfl⟩ := origin hq
    obtain ⟨_, hu⟩ := hR.reads (hf.links hl)
    obtain ⟨_, hv⟩ := hR.reads (hf.links hr)
    exact ⟨_, hq, (hu.unique hv same).trans e⟩

/-- A part that takes nothing and goes on under a condition on the place. -/
theorem guard (C : Place → Prop) [DecidablePred C] :
    Explored tracked (fun p => if C p.place then [p] else [])
      (fun p q cs => C p ∧ q = p ∧ cs = []) fun _ => False := by
  have mem {p q : Path} (hq : q ∈ if C p.place then [p] else []) : C p.place ∧ q = p := by
    split at hq
    · exact ⟨‹_›, List.mem_singleton.1 hq⟩
    · simp at hq
  refine ⟨fun _ _ _ => False, fun hq => ?_, fun hq ha => ?_, fun hj => ?_, fun _ {p q a} hq _ => ?_⟩
  · obtain ⟨holds, rfl⟩ := mem hq
    exact ⟨[], ⟨holds, rfl, rfl⟩, (List.append_nil _).symm⟩
  · obtain ⟨-, rfl⟩ := mem hq
    exact .inl ⟨ha, rfl⟩
  · obtain ⟨_, holds, rfl, -⟩ := hj
    exact .inl ⟨_, by rw [if_pos holds]; exact List.mem_singleton_self _, rfl⟩
  · obtain ⟨-, rfl⟩ := mem hq
    exact id

theorem chars (fold : Bool) (s : CharSet) :
    Explored tracked (fun p => (p.take? fold s).toList) (Regex.chars fold s).Spans
      fun _ => False := by
  have mem {p q : Path} (hq : q ∈ (p.take? fold s).toList) : ∃ c rest, p.place.rest = c :: rest ∧
      s.contains fold c ∧ q = { p with place := ⟨p.place.offset + 1, rest⟩, forks := [], begun := [] } := by
    rw [Option.mem_toList, Path.take?] at hq
    split at hq
    · rename_i c rest e
      split at hq
      · exact ⟨c, rest, e, ‹_›, (Option.some.inj hq).symm⟩
      · simp at hq
    · simp at hq
  refine ⟨fun _ _ _ => False, fun hq => ?_, fun hq ha => ?_, fun {p j} hj => ?_,
    fun _ {p q a} hq same _ => ?_⟩
  · obtain ⟨c, rest, e, holds, rfl⟩ := mem hq
    exact ⟨[], ⟨c, rest, e, holds, rfl, rfl⟩, (List.append_nil _).symm⟩
  · obtain ⟨c, rest, e, holds, rfl⟩ := mem hq
    exact absurd ha List.not_mem_nil
  · obtain ⟨_, c, rest, e, holds, rfl, -⟩ := hj
    exact .inl ⟨_, by simp only [Path.take?, e, holds, if_true, Option.toList_some,
      List.mem_singleton]; rfl, rfl⟩
  · obtain ⟨c, rest, e, holds, rfl⟩ := mem hq
    have := congrArg Place.offset same
    simp at this

theorem capture {f : Path → List Path} (name : Text) (hf : Explored tracked f R P) :
    Explored tracked (fun p => (f p).map (Path.capture name p.place))
      (fun p q cs => ∃ inner, R p q inner ∧ cs = inner ++ [(name, p.textTo q)]) P := by
  obtain ⟨resume, hf⟩ := hf
  refine ⟨resume, fun hq => ?_, fun {p q b} hq hb => ?_, fun {p j} hj => ?_,
    fun t {p q b} hq same hb => ?_⟩
  · obtain ⟨r, hr, rfl⟩ := List.mem_map.1 hq
    obtain ⟨cs, span, e⟩ := hf.sound hr
    refine ⟨cs ++ [_], ⟨cs, span, rfl⟩, ?_⟩
    rw [Path.capture, e, List.append_assoc]
    rfl
  · obtain ⟨r, hr, rfl⟩ := List.mem_map.1 hq
    refine (hf.forks hr hb).imp_right fun ⟨own, later⟩ => ⟨own, fun j hj => ?_⟩
    obtain ⟨cs, span⟩ := later j hj
    exact ⟨_, cs, span, rfl⟩
  · obtain ⟨_, cs, span, -⟩ := hj
    refine (hf.complete ⟨cs, span⟩).imp_left fun ⟨r, hr, e⟩ => ?_
    exact ⟨_, List.mem_map_of_mem hr, e⟩
  · obtain ⟨r, hr, rfl⟩ := List.mem_map.1 hq
    exact hf.keeps t (q := r) hr same hb

end Explored

/-- The branches of an address are apart. -/
theorem branch_unique {i j : Nat} {b : Address} (hi : (i :: a) <:+ b) (hj : (j :: a) <:+ b) :
    i = j := by
  have e := (List.suffix_of_suffix_length_le hi hj (by simp)).eq_of_length (by simp)
  exact (List.cons.inj e).1

theorem branch_fresh (i : Nat) (a : Address) : ¬ (i :: a) <:+ a := fun h => by
  have := h.length_le
  rw [List.length_cons] at this
  omega

theorem suffix_of_branch {i : Nat} {b : Address} (h : (i :: a) <:+ b) : a <:+ b :=
  (List.suffix_cons i a).trans h

section Repetition

variable {forked : Bool} {copies : Nat → Path → List Path}

/-- The copies of a repeated piece at the address `a`. -/
def CopiesAt (tracked : Bool) (a : Address) (R : Step) (copies : Nat → Path → List Path) : Prop :=
  ∀ copy, Explored tracked (copies copy) R ((copy + 1) :: a <:+ ·)

variable (hc : CopiesAt tracked a R copies) (hR : R.Advances)
include hc hR

variable (greedy) in
/-- A piece at least `low` times, where the piece makes progress or remembers its forks. -/
theorem CopiesAt.atLeast (low : Nat) (nullable : Bool)
    (turn : ∀ {p q}, a ∈ p.forks → q ∈ copies 0 p → q.place = p.place → a ∈ q.forks) :
    Explored tracked (atLeastRegular greedy a nullable copies low)
      (fun p q cs => ∃ n, low ≤ n ∧ R.power n p q cs) (a <:+ ·) := by
  have within : ∀ b, b = a ∨ (0 + 1) :: a <:+ b → a <:+ b := by
    rintro b (rfl | h)
    · exact List.suffix_rfl
    · exact suffix_of_branch h
  have star : (fun p q cs => ∃ n, 0 ≤ n ∧ R.power n p q cs) = R.star := by
    simp only [Nat.zero_le, true_and]; rfl
  match low, nullable with
  | 0, false =>
    rw [star]
    exact ((hc 0).loop (branch_fresh _ a) hR turn).mono within
  | 0, true =>
    have plus := (hc 0).plus greedy (branch_fresh _ a) hR turn
    have once := (plus.comp .stay (hR.comp hR.star) Step.stay_advances fun _ _ no => no).prefer
      greedy ((hR.comp hR.star).comp Step.stay_advances)
    have h := once.behind true (a := 0 :: a) <| by
      rintro ((e | own) | no)
      · exact absurd (congrArg List.length e) (by simp)
      · exact absurd (branch_unique own List.suffix_rfl) (by omega)
      · exact no
    have same : ((R.comp R.star).comp Step.stay).union Step.stay = R.star := by
      rw [Step.comp_stay]
      conv_rhs => rw [Step.star_eq]
      funext p q cs
      exact propext or_comm
    rw [same] at h
    rw [star]
    refine h.mono fun b => ?_
    rintro (rfl | own | no)
    · exact List.suffix_cons 0 a
    · exact within b own
    · exact no.elim
  | low + 1, _ =>
    have plus := (hc 0).plus greedy (branch_fresh _ a) hR turn
    have h := Explored.times (fun copy => hc (copy + 1)) plus hR (hR.comp hR.star)
      (fun i j b hi hj => by have := branch_unique hi hj; omega)
      (fun i b own => by
        rintro (rfl | other)
        · exact branch_fresh _ _ own
        · exact absurd (branch_unique own other) (by omega)) low
    rw [← times_succ copies, ← Step.comp_assoc] at h
    have same : ((R.power low).comp R).comp R.star =
        fun p q cs => ∃ n, low + 1 ≤ n ∧ R.power n p q cs := by
      have : (R.power low).comp R = R.power (low + 1) := by
        rw [Step.power_add, Step.power_one]
      rw [this]
      funext p q cs
      exact propext Step.comp_star_iff
    rw [same] at h
    refine h.mono fun b => ?_
    rintro (⟨copy, -, own⟩ | own)
    · exact suffix_of_branch own
    · exact within b own

variable (greedy forked) in
/-- A piece at least `low` times and at most `rest` times more. -/
theorem CopiesAt.between (low rest : Nat) :
    Explored tracked
      (Regex.times (fun copy => copies (rest + copy))
        (Regex.upTo greedy
          (fun copy p => if forked then p.passFork? (copy :: 0 :: a) else some p) copies rest) low)
      (fun p q cs => ∃ n, low ≤ n ∧ n ≤ low + rest ∧ R.power n p q cs) (a <:+ ·) := by
  have more := Explored.upTo greedy forked (fun copy => copy :: 0 :: a)
    hc hR (fun i j b hi hj => by have := branch_unique hi hj; omega)
    (fun i j own => absurd (branch_unique own (List.suffix_cons j (0 :: a))) (by omega))
    (fun i j e => (List.cons.inj e).1) rest
  have h := Explored.times (fun copy => hc (rest + copy)) more hR (hR.atMost rest)
    (fun i j b hi hj => by have := branch_unique hi hj; omega)
    (fun i b own => by
      rintro ⟨copy, lt, other | rfl⟩
      · exact absurd (branch_unique own other) (by omega)
      · exact absurd (branch_unique own (List.suffix_cons copy (0 :: a))) (by omega)) low
  rw [Step.comp_atMost] at h
  refine h.mono fun b => ?_
  rintro (⟨copy, -, own⟩ | ⟨copy, -, own | rfl⟩)
  · exact suffix_of_branch own
  · exact suffix_of_branch own
  · exact (List.suffix_cons 0 a).trans (List.suffix_cons copy _)

end Repetition

theorem spans_repeated_none (greedy : Bool) (low : Nat) (r : Regex) :
    (Regex.repeated greedy low none r).Spans =
      fun p q cs => ∃ n, low ≤ n ∧ r.Spans.power n p q cs := by
  simp [Spans]

theorem spans_repeated_some (greedy : Bool) (low high : Nat) (r : Regex) :
    (Regex.repeated greedy low (some high) r).Spans =
      fun p q cs => ∃ n, low ≤ n ∧ n ≤ low + (high - low) ∧ r.Spans.power n p q cs := by
  have (n : Nat) : n ≤ low + (high - low) ↔ n ≤ max low high := by omega
  simp [Spans, this]

/-- The ways through a regular regex end where the stretches end that it matches. -/
theorem explored_ways {r : Regex} (h : r.isRegular) (inLoop : Bool) (a : Address) :
    Explored inLoop (ways .regular inLoop a r) r.Spans (a <:+ ·) := by
  induction r generalizing inLoop a with
  | empty => exact (Explored.stay.mono fun _ no => no.elim).congr fun p => by rw [ways]
  | chars fold s => exact ((Explored.chars fold s).mono fun _ no => no.elim).congr fun p => by rw [ways]
  | atStart =>
    exact ((Explored.guard fun p => p.offset = 0).mono fun _ no => no.elim).congr fun p => by
      simp [ways]
  | atEnd =>
    exact ((Explored.guard fun p => p.rest = []).mono fun _ no => no.elim).congr fun p => by
      simp [ways]
  | seq r s ihr ihs =>
    obtain ⟨hr, hs⟩ := Bool.and_eq_true_iff.1 h
    have both := (ihr hr inLoop (0 :: a)).comp (ihs hs inLoop (1 :: a)) (spans_advances r)
      (spans_advances s) fun b hi hj => absurd (branch_unique hi hj) (by omega)
    refine (both.mono fun b => ?_).congr fun p => by rw [ways]
    exact fun own => own.elim suffix_of_branch suffix_of_branch
  | alt r s ihr ihs =>
    obtain ⟨hr, hs⟩ := Bool.and_eq_true_iff.1 h
    have both := (ihr hr inLoop (0 :: a)).union (ihs hs inLoop (1 :: a)) (spans_advances r)
      (spans_advances s) fun b hi hj => absurd (branch_unique hi hj) (by omega)
    have forked := both.behind inLoop (a := a) fun own =>
      own.elim (branch_fresh _ _) (branch_fresh _ _)
    refine (forked.mono fun b => ?_).congr fun p => by
      cases inLoop with
      | false => simp [ways]
      | true => cases e : p.passFork? a <;> simp [ways, e]
    rintro (rfl | own | own)
    · exact List.suffix_rfl
    · exact suffix_of_branch own
    · exact suffix_of_branch own
  | repeated greedy low high r ih =>
    have copies : CopiesAt (inLoop || r.nullable) a r.Spans
        fun copy => ways .regular (inLoop || r.nullable) ((copy + 1) :: a) r :=
      fun copy => ih h _ _
    have turn : ∀ {p q}, a ∈ p.forks →
        q ∈ ways .regular (inLoop || r.nullable) ((0 + 1) :: a) r p → q.place = p.place →
        a ∈ q.forks := by
      intro p q ha hq same
      obtain ⟨resume, hc⟩ := copies 0
      by_cases t : (inLoop || r.nullable) = true
      · exact hc.keeps t hq same ha
      · obtain ⟨cs, span⟩ := hc.links hq
        have moves := span.moves (Bool.or_eq_false_iff.1 (Bool.eq_false_iff.2 t)).2
        rw [same] at moves
        exact absurd moves (Nat.lt_irrefl _)
    cases high with
    | none =>
      have found := copies.atLeast greedy (spans_advances r) low r.nullable turn
      rw [← spans_repeated_none greedy] at found
      cases inLoop with
      | true => exact found.congr fun p => by simp [ways]
      | false =>
        exact (found.forget (spans_advances _)).congr fun p => by simp [ways]
    | some high =>
      have found := copies.between greedy inLoop (spans_advances r) low (high - low)
      rw [← spans_repeated_some greedy] at found
      cases inLoop with
      | true => exact found.congr fun p => by simp [ways]
      | false =>
        exact (found.forget (spans_advances _)).congr fun p => by simp [ways]
  | capture name r ih =>
    exact ((ih h inLoop (0 :: a)).capture name |>.mono fun _ => suffix_of_branch).congr fun p => by
      rw [ways]
  | ahead wanted r => simp [isRegular] at h
  | atomic r => simp [isRegular] at h

/-- An outcome of a regular regex is a stretch that it matches. -/
theorem spans_of_mem_outcomes {r : Regex} (h : r.isRegular) {p : Place} {o : Outcome}
    (ho : o ∈ r.outcomes p) : r.Spans p o.place o.captures := by
  simp only [outcomes, h, if_true, List.mem_map] at ho
  obtain ⟨q, hq, rfl⟩ := ho
  obtain ⟨resume, explores⟩ := explored_ways h false []
  obtain ⟨cs, span, e⟩ := explores.sound hq
  rw [e]
  exact span

/-- At the end of a stretch that a regular regex matches there is an outcome. -/
theorem exists_outcome {r : Regex} (h : r.isRegular) {p q : Place} (link : r.Spans.Links p q) :
    ∃ o ∈ r.outcomes p, o.place = q := by
  obtain ⟨resume, explores⟩ := explored_ways h false []
  rcases explores.complete (p := { place := p }) link with ⟨w, hw, e⟩ | ⟨b, hb, -⟩
  · exact ⟨w.toOutcome, by simp only [outcomes, h, if_true]; exact List.mem_map_of_mem hw, e⟩
  · exact absurd hb List.not_mem_nil

theorem ways_eq_nil_iff {r : Regex} (h : r.isRegular) {p : Path} (fresh : p.forks = []) :
    ways .regular false [] r p = [] ↔ ∀ j, ¬ r.Spans.Links p.place j := by
  obtain ⟨resume, explores⟩ := explored_ways h false []
  constructor
  · intro none j link
    rcases explores.complete link with ⟨q, hq, -⟩ | ⟨b, hb, -⟩
    · rw [none] at hq
      exact absurd hq List.not_mem_nil
    · rw [fresh] at hb
      exact absurd hb List.not_mem_nil
  · intro none
    exact List.eq_nil_iff_forall_not_mem.2 fun q hq => none q.place (explores.links hq)

end StepMatch.Regex
