import StepMatch.Proofs.Regex.Anchored

/-!
# Rows that look ahead

A regex that looks ahead is searched in the backtracking discipline. Where everything else in it is
steady, that is repeats without limit only what takes a character, the search misses nothing there
either: a repetition comes further with each round, so it needs no fork to turn back at. A piece that
looks ahead takes nothing, and lets a way pass only where its regex could not match.

`search_row` says what this amounts to for a row of such pieces between the edges of the text: the
search finds a match exactly if the stretches of the pieces lead from the start of the text to its
end.
-/

namespace StepMatch.Regex

/-- Whether the regex repeats without limit only what takes a character, and asks for one copy of it
at most. -/
def isSteady : Regex → Bool
  | .empty | .chars .. | .atStart | .atEnd => true
  | .seq r s | .alt r s => r.isSteady && s.isSteady
  | .repeated _ low high r => r.isSteady && (high.isSome || low ≤ 1 && !r.nullable)
  | .capture _ r | .ahead _ r | .atomic r => r.isSteady

variable {greedy inLoop : Bool} {a : Address} {f g : Path → List Path} {R S : Step} {p q : Path}
  {found : List Path} {fuel : Nat} {j : Place}

/-- The part of a search goes where the stretches of `R` lead, without a fork of its own. -/
structure Finds (f : Path → List Path) (R : Step) : Prop where
  sound {p q : Path} : q ∈ f p → ∃ cs, R p.place q.place cs ∧ q.captures = p.captures ++ cs
  forks {p q : Path} {b : Address} : q ∈ f p → b ∈ q.forks → b ∈ p.forks ∧ q.place = p.place
  complete {p : Path} {j : Place} : R.Links p.place j → ∃ q ∈ f p, q.place = j

theorem finds_iff_explored : Finds f R ↔ Explored false f R fun _ => False := by
  constructor
  · intro h
    exact ⟨fun _ _ _ => False, h.sound, fun hq hb => .inl (h.forks hq hb),
      fun hj => .inl (h.complete hj), fun e => by cases e⟩
  · rintro ⟨resume, h⟩
    exact ⟨h.sound, fun hq hb => (h.forks hq hb).resolve_right fun own => own.1,
      fun hj => (h.complete hj).resolve_right fun ⟨_, _, own, _⟩ => own⟩

namespace Finds

theorem links (h : Finds f R) (hq : q ∈ f p) : R.Links p.place q.place := by
  obtain ⟨cs, span, -⟩ := h.sound hq
  exact ⟨cs, span⟩

/-- What a way has begun makes no difference where the part does not ask for it. -/
theorem restart (h : Finds f R) (begun : Path → List Address) :
    Finds (fun p => f { p with begun := begun p }) R :=
  ⟨fun {p _} hq => h.sound (p := { p with begun := begun p }) hq,
    fun {p _ _} hq hb => h.forks (p := { p with begun := begun p }) hq hb,
    fun {p _} hj => h.complete (p := { p with begun := begun p }) hj⟩

theorem comp (hf : Finds f R) (hg : Finds g S) (hR : R.Advances) (hS : S.Advances) :
    Finds (fun p => follow (f p) g) (R.comp S) := by
  have both := (finds_iff_explored.1 hf).comp (finds_iff_explored.1 hg) hR hS fun _ no _ => no
  exact finds_iff_explored.2 (both.mono fun _ h => h.elim id id)

end Finds

section Repetition

variable (body : Finds f R) (advances : R.Advances)

/-- A loop without a fork adds nothing where it has been at the place. Otherwise it adds the place,
before or after those that its piece leads to. -/
theorem loopFrom_some_cases (greedy : Bool) (f : Path → List Path) (fuel : Nat)
    (found : List Path) (p : Path) :
    ((∃ q ∈ found, q.place.offset = p.place.offset) ∧
      loopFrom greedy some f (fuel + 1) found p = found) ∨
    loopFrom greedy some f (fuel + 1) found p =
      if greedy then add ((f p).foldl (loopFrom greedy some f fuel) found) p
      else (f p).foldl (loopFrom greedy some f fuel) (add found p) := by
  by_cases met : found.any p.meets
  · obtain ⟨q, hq, meets⟩ := List.any_eq_true.1 met
    simp only [Path.meets, Bool.and_eq_true, beq_iff_eq] at meets
    exact .inl ⟨⟨q, hq, meets.1.symm⟩, by simp [loopFrom, met]⟩
  · exact .inr (by simp [loopFrom, met])

include body in
/-- What a loop adds can be reached by going round. -/
theorem reached_of_mem_loopFrom (h : q ∈ loopFrom greedy some f fuel found p) :
    q ∈ found ∨ (∃ cs, R.star p.place q.place cs ∧ q.captures = p.captures ++ cs) ∧
      ∀ b ∈ q.forks, b ∈ p.forks ∧ q.place = p.place := by
  induction fuel generalizing found p with
  | zero => exact .inl h
  | succ fuel ih =>
    have here : (∃ cs, R.star p.place p.place cs ∧ p.captures = p.captures ++ cs) ∧
        ∀ b ∈ p.forks, b ∈ p.forks ∧ p.place = p.place :=
      ⟨⟨[], ⟨0, rfl, rfl⟩, (List.append_nil _).symm⟩, fun b hb => ⟨hb, rfl⟩⟩
    have again {ms : List Path} (sub : ∀ m ∈ ms, m ∈ f p) {found : List Path}
        (h : q ∈ ms.foldl (loopFrom greedy some f fuel) found) :
        q ∈ found ∨ (∃ cs, R.star p.place q.place cs ∧ q.captures = p.captures ++ cs) ∧
          ∀ b ∈ q.forks, b ∈ p.forks ∧ q.place = p.place := by
      induction ms generalizing found with
      | nil => exact .inl h
      | cons m ms ihm =>
        rcases ihm (fun m hm => sub m (List.mem_cons_of_mem _ hm)) h with h | h
        · refine (ih h).imp_right fun ⟨⟨cs₂, later, e₂⟩, forks⟩ => ?_
          obtain ⟨cs₁, first, e₁⟩ := body.sound (sub m List.mem_cons_self)
          constructor
          · refine ⟨cs₁ ++ cs₂, ?_, by rw [e₂, e₁, List.append_assoc]⟩
            rw [Step.star_eq]
            exact .inr ⟨_, cs₁, cs₂, first, later, rfl⟩
          · intro b hb
            obtain ⟨hb, same⟩ := forks b hb
            obtain ⟨hb, same'⟩ := body.forks (sub m List.mem_cons_self) hb
            exact ⟨hb, same.trans same'⟩
        · exact .inr h
    rcases loopFrom_some_cases greedy f fuel found p with ⟨-, e⟩ | e
    · exact .inl (e ▸ h)
    · rw [e] at h
      split at h
      · rcases mem_of_mem_add h with h | rfl
        · exact again (fun _ => id) h
        · exact .inr here
      · rcases again (fun _ => id) h with h | h
        · rcases mem_of_mem_add h with h | rfl
          · exact .inl h
          · exact .inr here
        · exact .inr h

/-- A loop finds the place where it stands. -/
theorem covers_loopFrom_some (greedy : Bool) (f : Path → List Path) (fuel : Nat)
    (found : List Path) (p : Path) :
    ∃ q ∈ loopFrom greedy some f (fuel + 1) found p, q.place.offset = p.place.offset := by
  rcases loopFrom_some_cases greedy f fuel found p with ⟨met, e⟩ | e
  · rw [e]
    exact met
  · rw [e]
    split
    · exact exists_mem_add _ p
    · obtain ⟨q, hq, same⟩ := exists_mem_add found p
      exact ⟨q, mem_foldl_of_mem (fun _ _ => mem_loopFrom_of_mem) _ hq, same⟩

/-- Wherever the piece leads from a place, a way is found that is as far. -/
def ClosedIn (R : Step) (found : List Path) (i : Place) : Prop :=
  ∀ j, R.Links i j → ∃ q ∈ found, q.place.offset = j.offset

theorem ClosedIn.mono {more : List Path} {i : Place} (h : ClosedIn R found i)
    (sub : ∀ q ∈ found, q ∈ more) : ClosedIn R more i := fun j hj => by
  obtain ⟨q, hq, same⟩ := h j hj
  exact ⟨q, sub q hq, same⟩

include body advances in
/-- Every place that a loop adds is closed under its piece, which comes further each time. -/
theorem loopFrom_some_closed (moves : ∀ {i j}, R.Links i j → i.offset < j.offset)
    (enough : p.place.rest.length < fuel) :
    ∀ q ∈ loopFrom greedy some f fuel found p,
      q ∈ found ∨ ClosedIn R (loopFrom greedy some f fuel found p) q.place := by
  induction fuel generalizing found p with
  | zero => exact fun q hq => .inl hq
  | succ fuel ih =>
    let next := loopFrom greedy some f fuel
    have enough' : ∀ m ∈ f p, m.place.rest.length < fuel := fun m hm => by
      have further := moves (body.links hm)
      obtain ⟨_, reads⟩ := advances.reads (body.links hm)
      have := reads.length_add
      omega
    have again : ∀ {ms : List Path}, (∀ m ∈ ms, m ∈ f p) → ∀ {before : List Path},
        ∀ q ∈ ms.foldl next before, q ∈ before ∨ ClosedIn R (ms.foldl next before) q.place := by
      intro ms sub
      induction ms with
      | nil => exact fun q hq => .inl hq
      | cons m ms ihm =>
        intro before q hq
        rcases ihm (fun m hm => sub m (List.mem_cons_of_mem _ hm)) q hq with hq | closed
        · refine (ih (enough' m (sub m List.mem_cons_self)) q hq).imp_right fun closed => ?_
          exact closed.mono fun _ => mem_foldl_of_mem (fun _ _ => mem_loopFrom_of_mem) ms
        · exact .inr closed
    have here : ∀ before, ClosedIn R ((f p).foldl next before) p.place := by
      intro before j hj
      obtain ⟨m, hm, rfl⟩ := body.complete hj
      obtain ⟨k, rfl⟩ := Nat.exists_eq_succ_of_ne_zero (Nat.ne_of_gt (Nat.zero_lt_of_lt (enough' m hm)))
      exact exists_mem_foldl next mem_loopFrom_of_mem hm (fun found => covers_loopFrom_some greedy f k found m)
        before
    rcases loopFrom_some_cases greedy f fuel found p with ⟨-, e⟩ | e
    · rw [e]
      exact fun q hq => .inl hq
    · rw [e]
      intro q hq
      cases greedy with
      | true =>
        rcases mem_of_mem_add hq with hq | rfl
        · exact (again (fun _ => id) q hq).imp_right fun closed =>
            closed.mono fun _ => mem_add_of_mem
        · exact .inr ((here found).mono fun _ => mem_add_of_mem)
      | false =>
        rcases again (fun _ => id) q hq with hq | closed
        · rcases mem_of_mem_add hq with hq | rfl
          · exact .inl hq
          · exact .inr (here _)
        · exact .inr closed

variable (greedy) in
include body advances in
/-- A repetition of a piece that comes further each time. -/
theorem Finds.loop (moves : ∀ {i j}, R.Links i j → i.offset < j.offset) :
    Finds (Regex.loop greedy some f) R.star := by
  have reached {p q : Path} (hq : q ∈ Regex.loop greedy some f p) :=
    (reached_of_mem_loopFrom body hq).resolve_left List.not_mem_nil
  have place {p q : Path} {j : Place} (hq : q ∈ Regex.loop greedy some f p)
      (hj : R.star.Links p.place j) (same : q.place.offset = j.offset) : q.place = j := by
    obtain ⟨⟨cs, span, -⟩, -⟩ := reached hq
    obtain ⟨_, hu⟩ := advances.star span
    obtain ⟨_, hv⟩ := advances.star.reads hj
    exact hu.unique hv same
  refine ⟨fun hq => (reached hq).1, fun hq hb => (reached hq).2 _ hb, fun {p j} hj => ?_⟩
  have closed : ∀ q ∈ Regex.loop greedy some f p,
      ClosedIn R (Regex.loop greedy some f p) q.place := fun q hq =>
    (loopFrom_some_closed body advances moves (by omega) q hq).resolve_left List.not_mem_nil
  refine hj.star_induction (P := fun i => ∃ q ∈ Regex.loop greedy some f p, q.place = i) ?_ ?_
  · obtain ⟨q, hq, same⟩ := covers_loopFrom_some greedy f (p.place.rest.length + 1) [] p
    exact ⟨q, hq, place hq (.star_refl R p.place) same⟩
  · rintro _ k ⟨m, hm, rfl⟩ step
    obtain ⟨cs, span, -⟩ := (reached hm).1
    obtain ⟨q, hq, same⟩ := closed m hm k step
    exact ⟨q, hq, place hq (Step.Links.star_tail ⟨cs, span⟩ step) same⟩

end Repetition

namespace Finds

/-- A piece once more at most `n` times. -/
theorem upTo (body : Finds f R) (advances : R.Advances) (greedy : Bool) :
    ∀ n, Finds (Regex.upTo greedy (fun _ => some) (fun _ => f) n) (R.atMost n)
  | 0 => finds_iff_explored.2 .stay
  | n + 1 => by
    have again := body.comp (upTo body advances greedy n) advances (advances.atMost n)
    have once := (finds_iff_explored.1 again).prefer greedy (advances.comp (advances.atMost n))
    exact finds_iff_explored.2 (once.congr fun p => by rw [Regex.upTo])

/-- A piece exactly `n` times, and then something else. -/
theorem times (body : Finds f R) (last : Finds g S) (advances : R.Advances)
    (advances' : S.Advances) (n : Nat) :
    Finds (Regex.times (fun _ => f) g n) ((R.power n).comp S) := by
  have each : ∀ copy, Explored false ((fun (_ : Nat) => f) copy) R
      ((fun (_ : Nat) (_ : Address) => False) copy) := fun _ => finds_iff_explored.1 body
  have all := Explored.times each (finds_iff_explored.1 last) advances advances'
    (fun _ _ _ no => no.elim) (fun _ _ no => no.elim) n
  refine finds_iff_explored.2 (all.mono fun _ own => ?_)
  rcases own with ⟨_, -, no⟩ | no
  · exact no
  · exact no

/-- A piece any number of times that comes further each time, at least once if `low` is one. -/
theorem atLeast (body : Finds f R) (advances : R.Advances)
    (moves : ∀ {i j}, R.Links i j → i.offset < j.offset) (greedy : Bool) (a : Address) {low : Nat}
    (le : low ≤ 1) :
    Finds (atLeastBacktracking greedy a false f low)
      fun p q cs => ∃ n, low ≤ n ∧ R.power n p q cs := by
  have any := body.loop greedy advances moves
  have star : (fun p q cs => ∃ n, low ≤ n ∧ R.power n p q cs) = (R.power low).comp R.star := by
    funext p q cs
    exact propext Step.comp_star_iff.symm
  rw [star]
  obtain rfl | rfl : low = 0 ∨ low = 1 := by omega
  · rw [Step.power, Step.stay_comp]
    exact any.restart fun p => p.begun.filter (· != a)
  · rw [Step.power_one]
    exact body.comp any advances advances.star

/-- At the end of a repetition that stands in no other one nothing is kept of it. -/
theorem forget (h : Finds f R) (advances : R.Advances) :
    Finds (fun p => addAll [] ((f p).map Path.untracked)) R :=
  finds_iff_explored.2 ((finds_iff_explored.1 h).forget advances)

end Finds

/-- A steady regex is searched in full in the backtracking discipline too. -/
theorem finds_ways {r : Regex} (regular : r.isRegular) (steady : r.isSteady) (inLoop : Bool)
    (a : Address) : Finds (ways .backtracking inLoop a r) r.Spans := by
  induction r generalizing inLoop a with
  | empty => exact finds_iff_explored.2 (Explored.stay.congr fun p => by rw [ways])
  | chars fold s => exact finds_iff_explored.2 ((Explored.chars fold s).congr fun p => by rw [ways])
  | atStart =>
    exact finds_iff_explored.2 ((Explored.guard fun p => p.offset = 0).congr fun p => by
      simp [ways])
  | atEnd =>
    exact finds_iff_explored.2 ((Explored.guard fun p => p.rest = []).congr fun p => by
      simp [ways])
  | seq r s ihr ihs =>
    obtain ⟨hr, hs⟩ := Bool.and_eq_true_iff.1 regular
    obtain ⟨sr, ss⟩ := Bool.and_eq_true_iff.1 steady
    have both := (ihr hr sr inLoop (0 :: a)).comp (ihs hs ss inLoop (1 :: a)) (spans_advances r)
      (spans_advances s)
    exact finds_iff_explored.2 ((finds_iff_explored.1 both).congr fun p => by rw [ways])
  | alt r s ihr ihs =>
    obtain ⟨hr, hs⟩ := Bool.and_eq_true_iff.1 regular
    obtain ⟨sr, ss⟩ := Bool.and_eq_true_iff.1 steady
    have both := (finds_iff_explored.1 (ihr hr sr inLoop (0 :: a))).union
      (finds_iff_explored.1 (ihs hs ss inLoop (1 :: a))) (spans_advances r) (spans_advances s)
      fun _ no _ => no
    refine finds_iff_explored.2 ((both.mono fun _ h => h.elim id id).congr fun p => ?_)
    have own : (Discipline.backtracking == .regular) = false := rfl
    simp [ways, own]
  | repeated greedy low high r ih =>
    obtain ⟨sr, bounded⟩ := Bool.and_eq_true_iff.1 steady
    have body := ih regular sr (inLoop || r.nullable) ((0 + 1) :: a)
    have settle {g : Path → List Path} (found : Finds g (Regex.repeated greedy low high r).Spans)
        (same : ∀ p, ways .backtracking inLoop a (.repeated greedy low high r) p =
          if inLoop then g p else addAll [] ((g p).map Path.untracked)) :
        Finds (ways .backtracking inLoop a (.repeated greedy low high r))
          (Regex.repeated greedy low high r).Spans := by
      cases inLoop with
      | true => exact finds_iff_explored.2 ((finds_iff_explored.1 found).congr fun p => (same p).symm)
      | false =>
        exact finds_iff_explored.2 ((finds_iff_explored.1 (found.forget (spans_advances _))).congr
          fun p => (same p).symm)
    cases high with
    | none =>
      obtain ⟨le, firm⟩ : low ≤ 1 ∧ r.nullable = false := by simpa using bounded
      have moves {i j : Place} (link : r.Spans.Links i j) : i.offset < j.offset := by
        obtain ⟨cs, span⟩ := link
        exact span.moves firm
      have found := body.atLeast (spans_advances r) moves greedy a le
      rw [← spans_repeated_none greedy] at found
      exact settle found fun p => by simp [ways, firm]
    | some high =>
      have advances := spans_advances r
      have found := body.times (body.upTo advances greedy (high - low)) advances
        (advances.atMost _) low
      rw [Step.comp_atMost, ← spans_repeated_some greedy] at found
      exact settle found fun p => by simp [ways]
  | capture name r ih =>
    have inner := (finds_iff_explored.1 (ih regular steady inLoop (0 :: a))).capture name
    exact finds_iff_explored.2 (inner.congr fun p => by rw [ways])
  | ahead | atomic => cases regular

/-- Nothing is taken where a stretch could not lead anywhere. -/
def Step.refusing (R : Step) : Step := fun p q cs => (∀ j, ¬ R.Links p j) ∧ q = p ∧ cs = []

theorem Step.refusing_advances (R : Step) : R.refusing.Advances := by
  rintro p q cs ⟨-, rfl, -⟩
  exact ⟨[], .refl q⟩

/-- A piece of a row, and what it does: it takes a stretch, or lets pass where its regex could not
match. -/
inductive IsPiece : Regex → Step → Prop where
  | taken {r : Regex} (regular : r.isRegular) (steady : r.isSteady) : IsPiece r r.Spans
  | refused {r : Regex} (regular : r.isRegular) : IsPiece (.ahead false r) r.Spans.refusing

variable {r : Regex} {rs : List Regex} {Rs : List Step}

theorem IsPiece.advances (h : IsPiece r R) : R.Advances := by
  cases h with
  | taken => exact spans_advances r
  | refused => exact Step.refusing_advances _

theorem advances_all (h : List.Forall₂ IsPiece rs Rs) : (Step.all Rs).Advances := by
  induction h with
  | nil => exact Step.stay_advances
  | cons piece _ ih => exact piece.advances.comp ih

theorem IsPiece.finds (h : IsPiece r R) (inLoop : Bool) (a : Address) :
    Finds (ways .backtracking inLoop a r) R := by
  cases h with
  | taken regular steady => exact finds_ways regular steady inLoop a
  | @refused r regular =>
    classical
    have guard : Explored false _ r.Spans.refusing fun _ => False :=
      Explored.guard fun p => ∀ j, ¬ r.Spans.Links p j
    refine finds_iff_explored.2 (guard.congr fun p => ?_)
    have none := ways_eq_nil_iff regular (p := p.untracked) rfl
    change (if ∀ j, ¬ r.Spans.Links p.untracked.place j then [p] else []) = _
    rw [← none]
    cases e : ways .regular false [] r p.untracked with
    | nil => simp [ways, regular, e]
    | cons q qs => simp [ways, regular, e]

variable (inLoop) in
theorem finds_foldl (h : List.Forall₂ IsPiece rs Rs) {r : Regex} {R : Step}
    (first : ∀ a, Finds (ways .backtracking inLoop a r) R) (advances : R.Advances) (a : Address) :
    Finds (ways .backtracking inLoop a (rs.foldl .seq r)) (R.comp (Step.all Rs)) := by
  induction h generalizing r R with
  | nil =>
    rw [Step.all, List.foldr_nil, Step.comp_stay]
    exact first a
  | @cons s S rs Rs piece others ih =>
    have both (a : Address) : Finds (ways .backtracking inLoop a (.seq r s)) (R.comp S) := by
      have comp := (first (0 :: a)).comp (piece.finds inLoop (1 :: a)) advances piece.advances
      exact finds_iff_explored.2 ((finds_iff_explored.1 comp).congr fun p => by rw [ways])
    have all := ih both (advances.comp piece.advances)
    rw [Step.comp_assoc] at all
    exact all

variable (inLoop) in
/-- Pieces of a row are searched one after the other. -/
theorem finds_concat (h : List.Forall₂ IsPiece rs Rs) (a : Address) :
    Finds (ways .backtracking inLoop a (concat rs)) (Step.all Rs) := by
  cases h with
  | nil => exact finds_iff_explored.2 (Explored.stay.congr fun p => by rw [concat, ways])
  | cons piece others => exact finds_foldl inLoop others (piece.finds inLoop) piece.advances a

/-- A row with a piece that looks ahead, between the edges of the text, matches exactly if its pieces
lead from the start of the text to its end. -/
theorem isSome_search_between {items : List Item}
    (h : List.Forall₂ IsPiece (items.reverse.map Item.regex) Rs)
    (looks : ∃ i ∈ items, i.regex.isRegular = false) (t : Text) :
    ((between items).search t).isSome ↔ (Step.all Rs).Links ⟨0, t⟩ ⟨t.length, []⟩ := by
  have whole : List.Forall₂ IsPiece (.atStart :: items.reverse.map Item.regex ++ [.atEnd])
      (Regex.atStart.Spans :: Rs ++ [Regex.atEnd.Spans]) :=
    List.rel_append (.cons (.taken rfl rfl) h) (.cons (.taken rfl rfl) .nil)
  have finds := finds_concat false whole []
  have irregular : (between items).isRegular = false := by
    obtain ⟨i, hi, looks⟩ := looks
    refine Bool.eq_false_iff.2 fun regular => ?_
    have own := isRegular_concat_iff.1 regular i.regex (List.mem_append_left _
      (List.mem_cons_of_mem _ (List.mem_map.2 ⟨i, List.mem_reverse.2 hi, rfl⟩)))
    rw [looks] at own
    cases own
  have outcomes (p : Place) : (between items).outcomes p =
      (ways .backtracking false [] (between items) { place := p }).map Path.toOutcome := by
    rw [Regex.outcomes, irregular]
    rfl
  have links (p j : Place) :
      (Step.all (Regex.atStart.Spans :: Rs ++ [Regex.atEnd.Spans])).Links p j ↔
        p.offset = 0 ∧ (Step.all Rs).Links p j ∧ j.rest = [] := by
    rw [Step.all_append, Step.links_comp]
    constructor
    · rintro ⟨m, ⟨_, _, _, cs, ⟨start, rfl, -⟩, inner, -⟩, _, _, _, _, ⟨stop, rfl, -⟩, ⟨rfl, -⟩, -⟩
      exact ⟨start, ⟨cs, inner⟩, stop⟩
    · rintro ⟨start, ⟨cs, inner⟩, stop⟩
      exact ⟨j, ⟨cs, p, [], cs, ⟨start, rfl, rfl⟩, inner, rfl⟩, [], j, [], [], ⟨stop, rfl, rfl⟩,
        ⟨rfl, rfl⟩, rfl⟩
  have start (p : Place) (ne : p.offset ≠ 0) : (between items).outcomes p = [] := by
    rw [outcomes, List.map_eq_nil_iff, List.eq_nil_iff_forall_not_mem]
    intro q hq
    exact ne ((links _ _).1 (finds.links hq)).1
  rw [search_eq_head? start, outcomes]
  constructor
  · intro some
    obtain ⟨o, ho⟩ := Option.isSome_iff_exists.1 some
    obtain ⟨q, hq, -⟩ := List.mem_map.1 (List.mem_of_mem_head? ho)
    obtain ⟨-, link, stop⟩ := (links _ _).1 (finds.links hq)
    obtain ⟨w, reads⟩ := (advances_all h).reads link
    have same : q.place = ⟨t.length, []⟩ := by
      have := reads.length_add
      rw [stop] at this
      obtain ⟨⟨⟨_, _⟩, _⟩, _, _⟩ := q
      simp_all
    exact same ▸ link
  · intro link
    obtain ⟨q, hq, -⟩ := finds.complete (p := { place := ⟨0, t⟩ }) ((links _ _).2 ⟨rfl, link, rfl⟩)
    cases e : ways .backtracking false [] (between items) { place := ⟨0, t⟩ } with
    | nil =>
      change q ∈ ways .backtracking false [] (between items) _ at hq
      rw [e] at hq
      cases hq
    | cons => rfl

end StepMatch.Regex
