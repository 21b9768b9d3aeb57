import StepMatch.Proofs.Regex.Exploration

/-!
# Repetitions of a regular search

A repetition enters its piece again from each place that the piece leads to, until it is turned back
at its own fork or comes to a place that is found already. The places that are found are closed
under one more repetition (`loopFrom_closed`), up to what the forks account for that the way had
come by before, so they are all the places that any number of repetitions leads to.
-/

namespace StepMatch.Regex

variable {tracked greedy : Bool} {a b : Address} {f : Path → List Path} {R : Step}
  {O : Address → Prop} {resume : Address → Place → Place → Prop} {p q : Path} {found : List Path}
  {fuel : Nat}

theorem mem_foldl_of_mem {next : List Path → Path → List Path}
    (grows : ∀ found p, q ∈ found → q ∈ next found p) (ps : List Path) (h : q ∈ found) :
    q ∈ ps.foldl next found := by
  induction ps generalizing found with
  | nil => exact h
  | cons p ps ih => exact ih (grows found p h)

theorem mem_loopFrom_of_mem {enter? : Path → Option Path} (h : q ∈ found) :
    q ∈ loopFrom greedy enter? f fuel found p := by
  induction fuel generalizing found p with
  | zero => exact h
  | succ fuel ih =>
    rw [loopFrom]
    split
    · exact h
    · split
      · exact h
      · cases greedy with
        | true => exact mem_add_of_mem (mem_foldl_of_mem (fun _ _ => ih) _ h)
        | false => exact mem_foldl_of_mem (fun _ _ => ih) _ (mem_add_of_mem h)

/-- A loop that is turned back at its fork, or has been at the place, adds nothing. Otherwise it adds
the place, before or after those that its piece leads to. -/
theorem loopFrom_cases (greedy : Bool) (a : Address) (f : Path → List Path) (fuel : Nat)
    (found : List Path) (p : Path) :
    (a ∈ p.forks ∧ loopFrom greedy (Path.passFork? a) f (fuel + 1) found p = found) ∨
    (a ∉ p.forks ∧ (∃ q ∈ found, q.place.offset = p.place.offset) ∧
      loopFrom greedy (Path.passFork? a) f (fuel + 1) found p = found) ∨
    (a ∉ p.forks ∧ loopFrom greedy (Path.passFork? a) f (fuel + 1) found p =
      if greedy then
        add ((f (p.past a)).foldl (loopFrom greedy (Path.passFork? a) f fuel) found) (p.past a)
      else
        (f (p.past a)).foldl (loopFrom greedy (Path.passFork? a) f fuel)
          (add found (p.past a))) := by
  by_cases h : a ∈ p.forks
  · exact .inl ⟨h, by simp [loopFrom, Path.passFork?_eq, h]⟩
  · by_cases met : found.any (p.past a).meets
    · obtain ⟨q, hq, meets⟩ := List.any_eq_true.1 met
      simp only [Path.meets, Bool.and_eq_true, beq_iff_eq] at meets
      exact .inr (.inl ⟨h, ⟨q, hq, meets.1.symm⟩, by simp [loopFrom, Path.passFork?_eq, h, met]⟩)
    · exact .inr (.inr ⟨h, by simp [loopFrom, Path.passFork?_eq, h, met]⟩)

/-- How a way that a loop has found came there from `p`. -/
structure Trail (tracked : Bool) (a : Address) (R : Step) (O : Address → Prop)
    (resume : Address → Place → Place → Prop) (p q : Path) : Prop where
  span : ∃ cs, R.star p.place q.place cs ∧ q.captures = p.captures ++ cs
  forks : ∀ b ∈ q.forks, b = a ∨ (b ∈ p.forks ∧ q.place = p.place) ∨
    (O b ∧ ∃ m, R.star.Links p.place m ∧ ∀ j, resume b q.place j → R.Links m j)
  keeps : tracked = true → q.place = p.place → ∀ b ∈ p.forks, b ∈ q.forks

section Body

variable (body : Explores tracked f R O resume) (fresh : ¬ O a) (advances : R.Advances)

theorem Trail.here (p : Path) : Trail tracked a R O resume p (p.past a) where
  span := ⟨[], ⟨0, rfl, rfl⟩, (List.append_nil _).symm⟩
  forks _ hb := (Path.mem_past_forks.1 hb).imp_right fun h => .inl ⟨h, rfl⟩
  keeps _ _ _ hb := Path.mem_past_forks.2 (.inr hb)

include body advances in
theorem Trail.after {m : Path} (hm : m ∈ f (p.past a))
    (h : Trail tracked a R O resume m q) : Trail tracked a R O resume p q where
  span := by
    obtain ⟨cs₁, first, e₁⟩ := body.sound hm
    obtain ⟨cs₂, later, e₂⟩ := h.span
    refine ⟨cs₁ ++ cs₂, ?_, by rw [e₂, e₁, List.append_assoc, Path.past_captures]⟩
    rw [Step.star_eq]
    exact .inr ⟨_, cs₁, cs₂, first, later, rfl⟩
  forks b hb := by
    have first : R.Links p.place m.place := body.links (p := p.past a) hm
    rcases h.forks b hb with e | ⟨hb, same⟩ | ⟨own, l, hl, later⟩
    · exact .inl e
    · rcases body.forks hm hb with ⟨hb, same'⟩ | ⟨own, later⟩
      · exact (Path.mem_past_forks.1 hb).imp_right fun h => .inl ⟨h, same.trans same'⟩
      · exact .inr (.inr ⟨own, p.place, .star_refl R _, fun j hj => later j (same ▸ hj)⟩)
    · exact .inr (.inr ⟨own, l, .star_head first hl, later⟩)
  keeps t same b hb := by
    have first : R.Links p.place m.place := body.links (p := p.past a) hm
    obtain ⟨_, hu⟩ := advances.reads first
    obtain ⟨cs, later, -⟩ := h.span
    obtain ⟨_, hv⟩ := advances.star later
    have stays : m.place = p.place :=
      hu.eq_of_offset_eq (by have := hu.offset_le; have := hv.offset_le; rw [same] at *; omega)
    exact h.keeps t (same.trans stays.symm) b
      (body.keeps t hm stays (Path.mem_past_forks.2 (.inr hb)))

include body advances in
theorem trail_of_mem_loopFrom (h : q ∈ loopFrom greedy (Path.passFork? a) f fuel found p) :
    q ∈ found ∨ Trail tracked a R O resume p q := by
  induction fuel generalizing found p with
  | zero => exact .inl h
  | succ fuel ih =>
    have again {ms : List Path} (sub : ∀ m ∈ ms, m ∈ f (p.past a))
        {found : List Path} (h : q ∈ ms.foldl (loopFrom greedy (Path.passFork? a) f fuel) found) :
        q ∈ found ∨ Trail tracked a R O resume p q := by
      induction ms generalizing found with
      | nil => exact .inl h
      | cons m ms ihm =>
        rcases ihm (fun m hm => sub m (List.mem_cons_of_mem _ hm)) h with h | h
        · exact (ih h).imp_right (.after body advances (sub m List.mem_cons_self))
        · exact .inr h
    rcases loopFrom_cases greedy a f fuel found p with ⟨-, e⟩ | ⟨-, -, e⟩ | ⟨-, e⟩
    · exact .inl (e ▸ h)
    · exact .inl (e ▸ h)
    · rw [e] at h
      split at h
      · rcases mem_of_mem_add h with h | rfl
        · exact again (fun _ => id) h
        · exact .inr (.here p)
      · rcases again (fun _ => id) h with h | h
        · rcases mem_of_mem_add h with h | rfl
          · exact .inl h
          · exact .inr (.here p)
        · exact .inr h

/-- A loop that is not turned back at once finds the place where it stands. -/
theorem covers_loopFrom (free : a ∉ p.forks) (enough : p.place.rest.length < fuel) :
    ∃ q ∈ loopFrom greedy (Path.passFork? a) f fuel found p, q.place.offset = p.place.offset := by
  obtain _ | fuel := fuel
  · exact absurd enough (Nat.not_lt_zero _)
  · rcases loopFrom_cases greedy a f fuel found p with ⟨ha, -⟩ | ⟨-, met, e⟩ | ⟨-, e⟩
    · exact absurd ha free
    · rw [e]; exact met
    · rw [e]
      split
      · exact exists_mem_add _ (p.past a)
      · obtain ⟨q, hq, same⟩ := exists_mem_add found (p.past a)
        exact ⟨q, mem_foldl_of_mem (fun _ _ => mem_loopFrom_of_mem) _ hq, same⟩

/-- The places of the ways, as far as they can be reached from a start. -/
def Within (start : Place) (found : List Path) : Prop := ∀ q ∈ found, ∃ w, start.Reads w q.place

include body advances in
theorem within_loopFrom {start : Place} (hp : ∃ w, start.Reads w p.place)
    (hf : Within start found) :
    Within start (loopFrom greedy (Path.passFork? a) f fuel found p) := by
  intro q hq
  rcases trail_of_mem_loopFrom body advances hq with hq | trail
  · exact hf q hq
  · obtain ⟨u, hu⟩ := hp
    obtain ⟨cs, span, -⟩ := trail.span
    obtain ⟨v, hv⟩ := advances.star span
    exact ⟨u ++ v, hu.trans hv⟩

/-- A place from which the piece leads only to places with the property `S`. -/
def Closed (R : Step) (S : Place → Prop) (p : Place) : Prop := ∀ j, R.Links p j → S j

theorem within_foldl {start : Place} {next : List Path → Path → List Path} {ps : List Path}
    (within : ∀ p ∈ ps, ∀ {found}, Within start found → Within start (next found p))
    (hf : Within start found) : Within start (ps.foldl next found) := by
  induction ps generalizing found with
  | nil => exact hf
  | cons p ps ih =>
    exact ih (fun p hp => within p (List.mem_cons_of_mem _ hp)) (within p List.mem_cons_self hf)

theorem exists_mem_foldl (next : List Path → Path → List Path)
    (grows : ∀ {found p q}, q ∈ found → q ∈ next found p) {ps : List Path} (hp : p ∈ ps)
    (covers : ∀ found, ∃ q ∈ next found p, q.place.offset = p.place.offset) (found : List Path) :
    ∃ q ∈ ps.foldl next found, q.place.offset = p.place.offset := by
  obtain ⟨before, after, rfl⟩ := List.append_of_mem hp
  rw [List.foldl_append, List.foldl_cons]
  obtain ⟨q, hq, same⟩ := covers (before.foldl next found)
  exact ⟨q, mem_foldl_of_mem (fun _ _ => grows) _ hq, same⟩

/-- A fold of a loop over several starts: what one start keeps, all of them keep. -/
theorem foldl_closed {start : Place} {S C : Place → Prop} {next : List Path → Path → List Path}
    (grows : ∀ {found p q}, q ∈ found → q ∈ next found p) {ps : List Path}
    (within : ∀ p ∈ ps, ∀ {found}, Within start found → Within start (next found p))
    (each : ∀ p ∈ ps, ∀ {found}, Within start found → (∀ q ∈ next found p, S q.place) →
      ∀ q ∈ next found p, q ∈ found ∨ C q.place)
    {found : List Path} (hf : Within start found) (final : ∀ q ∈ ps.foldl next found, S q.place) :
    ∀ q ∈ ps.foldl next found, q ∈ found ∨ C q.place := by
  induction ps generalizing found with
  | nil => exact fun q hq => .inl hq
  | cons p ps ih =>
    intro q hq
    have now : ∀ q ∈ next found p, S q.place := fun q hq =>
      final q (mem_foldl_of_mem (fun _ _ => grows) ps hq)
    rcases ih (fun p hp => within p (List.mem_cons_of_mem _ hp))
      (fun p hp => each p (List.mem_cons_of_mem _ hp)) (within p List.mem_cons_self hf) final q hq
      with hq | closed
    · exact each p List.mem_cons_self hf now q hq
    · exact .inr closed

include body fresh advances in
/-- Every place that a loop adds is closed under the piece, for any property `S` that the found
places have and that holds where the forks of the way would lead. `turn` says that the piece makes
progress or remembers the fork. -/
theorem loopFrom_closed {start : Place} {S : Place → Prop}
    (turn : ∀ {p q}, a ∈ p.forks → q ∈ f p → q.place = p.place → a ∈ q.forks)
    (hp : ∃ w, start.Reads w p.place) (hf : Within start found)
    (enough : a ∈ p.forks ∨ p.place.rest.length < fuel)
    (resumed : ∀ b ∈ p.forks, O b → ∀ j, resume b p.place j → S j)
    (final : ∀ q ∈ loopFrom greedy (Path.passFork? a) f fuel found p, S q.place) :
    ∀ q ∈ loopFrom greedy (Path.passFork? a) f fuel found p, q ∈ found ∨ Closed R S q.place := by
  induction fuel generalizing found p with
  | zero => exact fun q hq => .inl hq
  | succ fuel ih =>
    rcases loopFrom_cases greedy a f fuel found p with ⟨-, e⟩ | ⟨-, -, e⟩ | ⟨free, e⟩
    · exact fun q hq => .inl (e ▸ hq)
    · exact fun q hq => .inl (e ▸ hq)
    · let next := loopFrom greedy (Path.passFork? a) f fuel
      have room : p.place.rest.length < fuel + 1 := enough.resolve_left free
      have reads : ∀ {m}, m ∈ f (p.past a) → ∃ w, p.place.Reads w m.place := fun hm =>
        advances.reads (body.links (p := p.past a) hm)
      have reached : ∀ m ∈ f (p.past a), ∃ w, start.Reads w m.place := fun m hm => by
        obtain ⟨u, hu⟩ := hp
        obtain ⟨v, hv⟩ := reads hm
        exact ⟨u ++ v, hu.trans hv⟩
      have enough' : ∀ m ∈ f (p.past a), a ∈ m.forks ∨ m.place.rest.length < fuel := fun m hm => by
        obtain ⟨v, hv⟩ := reads hm
        by_cases same : m.place = p.place
        · exact .inl (turn (Path.mem_past_forks.2 (.inl rfl)) hm same)
        · have ne : m.place.offset ≠ p.place.offset := fun e => same (hv.eq_of_offset_eq e)
          have := hv.length_add
          have := hv.offset_le
          exact .inr (by omega)
      have within : ∀ m ∈ f (p.past a), ∀ {found}, Within start found →
          Within start (next found m) := fun m hm _ hf => within_loopFrom body advances (reached m hm) hf
      -- whatever the piece leads to from here is found in the end, or the forks account for it
      have closed : ∀ {before}, Within start before → S p.place →
          (∀ q ∈ (f (p.past a)).foldl next before, S q.place) → Closed R S p.place := by
        intro before hb here final j hj
        rcases body.complete (p := p.past a) hj with ⟨m, hm, rfl⟩ | ⟨b, hb, own, at'⟩
        · by_cases turned : a ∈ m.forks
          · rcases body.forks hm turned with ⟨-, same⟩ | ⟨own, -⟩
            · exact same ▸ here
            · exact (fresh own).elim
          · obtain ⟨x, hx, same⟩ := exists_mem_foldl next mem_loopFrom_of_mem hm
              (fun _ => covers_loopFrom turned ((enough' m hm).resolve_left turned)) before
            obtain ⟨_, hu⟩ := within_foldl within hb x hx
            obtain ⟨_, hv⟩ := reached m hm
            exact hu.unique hv same ▸ final x hx
        · have ne : b ≠ a := fun e => fresh (e ▸ own)
          exact resumed b ((Path.mem_past_forks.1 hb).resolve_left ne) own j at'
      have again : ∀ {before}, Within start before → Closed R S p.place →
          (∀ q ∈ (f (p.past a)).foldl next before, S q.place) →
          ∀ q ∈ (f (p.past a)).foldl next before, q ∈ before ∨ Closed R S q.place := by
        intro before hb here final
        refine foldl_closed mem_loopFrom_of_mem within (fun m hm before hb now => ?_) hb final
        refine ih (reached m hm) hb (enough' m hm) (fun b hb own j at' => ?_) now
        rcases body.forks hm hb with ⟨hb, same⟩ | ⟨-, later⟩
        · have ne : b ≠ a := fun e => fresh (e ▸ own)
          exact resumed b ((Path.mem_past_forks.1 hb).resolve_left ne) own j (same ▸ at')
        · exact here j (later j at')
      have here : S p.place := by
        obtain ⟨x, hx, same⟩ := covers_loopFrom free room
        obtain ⟨_, hu⟩ := within_loopFrom body advances hp hf x hx
        obtain ⟨_, hv⟩ := hp
        exact hu.unique hv same ▸ final x hx
      rw [e] at final ⊢
      intro q hq
      cases greedy with
      | true =>
        have final' := fun q hq => final q (mem_add_of_mem hq)
        rcases mem_of_mem_add hq with hq | rfl
        · exact again hf (closed hf here final') final' q hq
        · exact .inr (closed hf here final')
      | false =>
        have hb : Within start (add found (p.past a)) := fun q hq => by
          rcases mem_of_mem_add hq with hq | rfl
          · exact hf q hq
          · exact hp
        rcases again hb (closed hb here final) final q hq with hq | hq
        · rcases mem_of_mem_add hq with hq | rfl
          · exact .inl hq
          · exact .inr (closed hb here final)
        · exact .inr hq

include body fresh advances in
/-- Two facts about a loop that starts with nothing found: it finds the place where it stands, and
what it finds is closed under the piece. -/
theorem loop_closed {S : Place → Prop}
    (turn : ∀ {p q}, a ∈ p.forks → q ∈ f p → q.place = p.place → a ∈ q.forks)
    (resumed : ∀ b ∈ p.forks, O b → ∀ j, resume b p.place j → S j)
    (final : ∀ q ∈ loop greedy (Path.passFork? a) f p, S q.place) :
    ∀ q ∈ loop greedy (Path.passFork? a) f p, Closed R S q.place := fun q hq =>
  (loopFrom_closed body fresh advances turn ⟨[], .refl _⟩ (fun _ h => absurd h List.not_mem_nil)
    (.inr (Nat.lt_succ_of_lt (Nat.lt_succ_self _))) resumed final q hq).resolve_left
    List.not_mem_nil

include body advances in
theorem exists_mem_loop (free : a ∉ p.forks) :
    ∃ q ∈ loop greedy (Path.passFork? a) f p, q.place = p.place := by
  obtain ⟨q, hq, same⟩ :=
    covers_loopFrom (f := f) free
      (Nat.lt_succ_of_lt (Nat.lt_succ_self p.place.rest.length))
  obtain ⟨_, hu⟩ := within_loopFrom body advances ⟨[], .refl p.place⟩
    (fun _ h => absurd h List.not_mem_nil) q hq
  exact ⟨q, hq, hu.eq_of_offset_eq same⟩

include body advances in
theorem trail_of_mem_loop (h : q ∈ loop greedy (Path.passFork? a) f p) :
    Trail tracked a R O resume p q :=
  (trail_of_mem_loopFrom body advances h).resolve_left List.not_mem_nil

end Body

namespace Explored

variable (hf : Explored tracked f R O) (fresh : ¬ O a) (advances : R.Advances)
  (turn : ∀ {p q}, a ∈ p.forks → q ∈ f p → q.place = p.place → a ∈ q.forks)
include hf fresh advances turn

/-- A piece any number of times. -/
theorem loop : Explored tracked (loop greedy (Path.passFork? a) f) R.star fun b => b = a ∨ O b := by
  obtain ⟨resume, hf⟩ := hf
  refine ⟨fun b i j => if b = a then R.star.Links i j else ∃ k, resume b i k ∧ R.star.Links k j,
    fun hq => (trail_of_mem_loop hf advances hq).span, fun {p q b} hq hb => ?_,
    fun {p j} hj => ?_, fun t {p q b} hq same hb =>
      (trail_of_mem_loop hf advances hq).keeps t same b hb⟩
  · have trail := trail_of_mem_loop hf advances hq
    obtain ⟨cs, span, -⟩ := trail.span
    rcases trail.forks b hb with rfl | hb | ⟨own, m, hm, later⟩
    · refine .inr ⟨.inl rfl, fun j hj => ?_⟩
      rw [if_pos rfl] at hj
      exact Step.Links.star_trans ⟨cs, span⟩ hj
    · exact .inl hb
    · have ne : b ≠ a := fun e => fresh (e ▸ own)
      refine .inr ⟨.inr own, fun j hj => ?_⟩
      rw [if_neg ne] at hj
      obtain ⟨k, hk, hj⟩ := hj
      exact (hm.star_tail (later k hk)).star_trans hj
  · by_cases turned : a ∈ p.forks
    · exact .inr ⟨a, turned, .inl rfl, by rwa [if_pos rfl]⟩
    · let S (k : Place) : Prop := (∃ q ∈ Regex.loop greedy (Path.passFork? a) f p, q.place = k) ∨
        ∃ b ∈ p.forks, O b ∧ ∃ l, resume b p.place l ∧ R.star.Links l k
      have closed := loop_closed (S := S) hf fresh advances turn
        (fun b hb own j at' => .inr ⟨b, hb, own, j, at', .star_refl R j⟩)
        (fun q hq => .inl ⟨q, hq, rfl⟩)
      have all : S j := hj.star_induction (.inl (exists_mem_loop hf advances turned)) <| by
        rintro m j (⟨q, hq, rfl⟩ | ⟨b, hb, own, l, at', hl⟩) step
        · exact closed q hq j step
        · exact .inr ⟨b, hb, own, l, at', hl.star_tail step⟩
      refine all.imp_right fun ⟨b, hb, own, later⟩ => ⟨b, hb, .inr own, ?_⟩
      have ne : b ≠ a := fun e => fresh (e ▸ own)
      rwa [if_neg ne]

variable (greedy) in
/-- A piece at least once. The first time is the piece of the loop too, so its forks are. -/
theorem plus :
    Explored tracked (fun p => follow (f p) (Regex.loop greedy (Path.passFork? a) f))
      (R.comp R.star) fun b => b = a ∨ O b := by
  obtain ⟨resume, hf⟩ := hf
  refine ⟨fun b i j => if b = a then R.star.Links i j else ∃ k, resume b i k ∧ R.star.Links k j,
    fun hq => ?_, fun {p q b} hq hb => ?_, fun {p j} hj => ?_, fun t {p q b} hq same hb => ?_⟩
  · obtain ⟨m, hm, hq⟩ := mem_of_mem_follow hq
    obtain ⟨cs₁, first, e₁⟩ := hf.sound hm
    obtain ⟨cs₂, later, e₂⟩ := (trail_of_mem_loop hf advances hq).span
    exact ⟨cs₁ ++ cs₂, ⟨_, cs₁, cs₂, first, later, rfl⟩, by rw [e₂, e₁, List.append_assoc]⟩
  · obtain ⟨m, hm, hq⟩ := mem_of_mem_follow hq
    have trail := trail_of_mem_loop hf advances hq
    obtain ⟨cs, span, -⟩ := trail.span
    rcases trail.forks b hb with rfl | ⟨hb, same⟩ | ⟨own, l, hl, later⟩
    · refine .inr ⟨.inl rfl, fun j hj => ?_⟩
      rw [if_pos rfl] at hj
      exact Step.links_comp.2 ⟨m.place, hf.links hm, Step.Links.star_trans ⟨cs, span⟩ hj⟩
    · rcases hf.forks hm hb with ⟨hb, same'⟩ | ⟨own, later⟩
      · exact .inl ⟨hb, same.trans same'⟩
      · have ne : b ≠ a := fun e => fresh (e ▸ own)
        refine .inr ⟨.inr own, fun j hj => ?_⟩
        rw [if_neg ne, same] at hj
        obtain ⟨k, hk, hj⟩ := hj
        exact Step.links_comp.2 ⟨k, later k hk, hj⟩
    · have ne : b ≠ a := fun e => fresh (e ▸ own)
      refine .inr ⟨.inr own, fun j hj => ?_⟩
      rw [if_neg ne] at hj
      obtain ⟨k, hk, hj⟩ := hj
      exact Step.links_comp.2
        ⟨m.place, hf.links hm, (hl.star_tail (later k hk)).star_trans hj⟩
  · let again : Path → List Path := Regex.loop greedy (Path.passFork? a) f
    let S (k : Place) : Prop := (∃ q ∈ follow (f p) again, q.place = k) ∨
      ∃ b ∈ p.forks, (b = a ∨ O b) ∧
        if b = a then R.star.Links p.place k else ∃ l, resume b p.place l ∧ R.star.Links l k
    have found : ∀ {m q}, m ∈ f p → q ∈ again m → S q.place := fun {m q} hm hq => by
      obtain ⟨r, hr, same⟩ := exists_mem_follow hm hq
      have reads : ∀ {m q}, m ∈ f p → q ∈ again m → ∃ w, p.place.Reads w q.place :=
        fun {m q} hm hq => by
          obtain ⟨cs, span, -⟩ := (trail_of_mem_loop hf advances hq).span
          exact (advances.comp advances.star).reads
            (Step.links_comp.2 ⟨m.place, hf.links hm, cs, span⟩)
      obtain ⟨l, hl, hr'⟩ := mem_of_mem_follow hr
      obtain ⟨_, hu⟩ := reads hl hr'
      obtain ⟨_, hv⟩ := reads hm hq
      exact .inl ⟨r, hr, hu.unique hv same⟩
    have resumes : ∀ b ∈ p.forks, O b → ∀ j, resume b p.place j → S j := fun b hb own j at' => by
      have ne : b ≠ a := fun e => fresh (e ▸ own)
      exact .inr ⟨b, hb, .inr own, by rw [if_neg ne]; exact ⟨j, at', .star_refl R j⟩⟩
    have first : ∀ k, R.Links p.place k → S k := fun k hk => by
      rcases hf.complete hk with ⟨m, hm, rfl⟩ | ⟨b, hb, own, at'⟩
      · by_cases turned : a ∈ m.forks
        · rcases hf.forks hm turned with ⟨ha, same⟩ | ⟨own, -⟩
          · refine .inr ⟨a, ha, .inl rfl, ?_⟩
            rw [if_pos rfl, same]
            exact .star_refl R _
          · exact (fresh own).elim
        · obtain ⟨q, hq, same⟩ := exists_mem_loop hf advances turned
          exact same ▸ found hm hq
      · exact resumes b hb own k at'
    have next : ∀ m k, S m → R.Links m k → S k := by
      rintro _ k (⟨q, hq, rfl⟩ | ⟨b, hb, own, later⟩) step
      · obtain ⟨m, hm, hq⟩ := mem_of_mem_follow hq
        refine loop_closed hf fresh advances turn (fun b hb own j at' => ?_)
          (fun q hq => found hm hq) q hq k step
        rcases hf.forks hm hb with ⟨hb, same⟩ | ⟨-, later⟩
        · exact resumes b hb own j (same ▸ at')
        · exact first j (later j at')
      · refine .inr ⟨b, hb, own, ?_⟩
        split at later <;> rename_i e
        · rw [if_pos e]
          exact later.star_tail step
        · rw [if_neg e]
          obtain ⟨l, hl, later⟩ := later
          exact ⟨l, hl, later.star_tail step⟩
    obtain ⟨k, hk, later⟩ := Step.links_comp.1 hj
    exact later.star_induction (first k hk) next
  · obtain ⟨m, hm, hq⟩ := mem_of_mem_follow hq
    have trail := trail_of_mem_loop hf advances hq
    obtain ⟨_, hu⟩ := advances.reads (hf.links hm)
    obtain ⟨cs, span, -⟩ := trail.span
    obtain ⟨_, hv⟩ := advances.star span
    have stays : m.place = p.place :=
      hu.eq_of_offset_eq (by have := hu.offset_le; have := hv.offset_le; rw [same] at *; omega)
    exact trail.keeps t (same.trans stays.symm) b (hf.keeps t hm stays hb)

end Explored

end StepMatch.Regex
