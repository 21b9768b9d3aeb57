import StepMatch.Proofs.Regex.Spans

/-!
# A regular search misses nothing

In the regular discipline a way ends where it comes back to a fork, and of two ways that meet only
the first goes on. Neither loses a match: `explored_ways` says that the ways through a regex end
exactly where the stretches end that the regex matches.

The proof is local. A part of a regex is entered by a way that has come by some forks already. If a
stretch of the part is not found, then the way was turned back at one of these forks, and from there
the end of the stretch could be reached as well. That is what `Explores.complete` says; the relation
`resume` tells what can be reached from a fork. It is consistent with the forks that a found way has
come by (`Explores.forks`), so the parts fit together, and at the root there is no fork to turn back
at.
-/

namespace StepMatch.Regex

variable {p q : Path} {found more starts : List Path} {f g : Path → List Path} {a b : Address}

theorem mem_of_mem_add (h : q ∈ add found p) : q ∈ found ∨ q = p := by
  unfold add at h
  split at h
  · exact .inl h
  · simpa using h

theorem mem_add_of_mem (h : q ∈ found) : q ∈ add found p := by
  unfold add
  split
  · exact h
  · exact List.mem_append_left _ h

/-- A way that is dropped meets one that ends at the same place. -/
theorem exists_mem_add (found : List Path) (p : Path) :
    ∃ q ∈ add found p, q.place.offset = p.place.offset := by
  unfold add
  split
  · rename_i met
    obtain ⟨q, hq, meets⟩ := List.any_eq_true.1 met
    simp only [Path.meets, Bool.and_eq_true, beq_iff_eq] at meets
    exact ⟨q, hq, meets.1.symm⟩
  · exact ⟨p, by simp, rfl⟩

theorem mem_addAll_of_mem (h : q ∈ found) : q ∈ addAll found more := by
  induction more generalizing found with
  | nil => exact h
  | cons p more ih => exact ih (mem_add_of_mem h)

theorem mem_of_mem_addAll (h : q ∈ addAll found more) : q ∈ found ∨ q ∈ more := by
  induction more generalizing found with
  | nil => exact .inl h
  | cons p more ih =>
    rcases ih h with h | h
    · exact (mem_of_mem_add h).imp_right fun e => List.mem_cons.2 (.inl e)
    · exact .inr (List.mem_cons_of_mem _ h)

theorem exists_mem_addAll (h : p ∈ more) :
    ∃ q ∈ addAll found more, q.place.offset = p.place.offset := by
  induction more generalizing found with
  | nil => simp at h
  | cons r more ih =>
    rcases List.mem_cons.1 h with rfl | h
    · obtain ⟨q, hq, same⟩ := exists_mem_add found p
      exact ⟨q, show q ∈ addAll (add found p) more from mem_addAll_of_mem hq, same⟩
    · exact ih h

theorem mem_foldl_addAll (h : q ∈ starts.foldl (fun found p => addAll found (f p)) found) :
    q ∈ found ∨ ∃ p ∈ starts, q ∈ f p := by
  induction starts generalizing found with
  | nil => exact .inl h
  | cons p starts ih =>
    rcases ih h with h | ⟨r, hr, hq⟩
    · exact (mem_of_mem_addAll h).imp_right fun hq => ⟨p, List.mem_cons_self, hq⟩
    · exact .inr ⟨r, List.mem_cons_of_mem _ hr, hq⟩

theorem mem_of_mem_follow (h : q ∈ follow starts f) : ∃ p ∈ starts, q ∈ f p :=
  (mem_foldl_addAll h).resolve_left List.not_mem_nil

theorem mem_foldl_addAll_of_mem (h : q ∈ found) :
    q ∈ starts.foldl (fun found p => addAll found (f p)) found := by
  induction starts generalizing found with
  | nil => exact h
  | cons p starts ih => exact ih (mem_addAll_of_mem h)

theorem exists_mem_follow (hp : p ∈ starts) (hq : q ∈ f p) :
    ∃ r ∈ follow starts f, r.place.offset = q.place.offset := by
  obtain ⟨before, after, rfl⟩ := List.append_of_mem hp
  rw [follow, List.foldl_append, List.foldl_cons]
  obtain ⟨r, hr, same⟩ := exists_mem_addAll hq
  exact ⟨r, mem_foldl_addAll_of_mem hr, same⟩

/-- The way once it has come by a fork. -/
def Path.past (p : Path) (a : Address) : Path := { p with forks := a :: p.forks }

@[simp] theorem Path.past_place : (p.past a).place = p.place := rfl

@[simp] theorem Path.past_captures : (p.past a).captures = p.captures := rfl

@[simp] theorem Path.mem_past_forks : b ∈ (p.past a).forks ↔ b = a ∨ b ∈ p.forks := List.mem_cons

theorem Path.passFork?_eq : p.passFork? a = if a ∈ p.forks then none else some (p.past a) := by
  by_cases h : a ∈ p.forks <;> simp [Path.passFork?, Path.past, h]

/-- What is known of a part `f` of a search that follows the stretches of `R`. The forks in the part
are `owned` by it; `resume a` relates a place where a way stands at the fork `a` to the places where
the part can be left from there. If the part is `tracked`, a way does not forget a fork while it
stays at its place. -/
structure Explores (tracked : Bool) (f : Path → List Path) (R : Step) (owned : Address → Prop)
    (resume : Address → Place → Place → Prop) : Prop where
  sound : ∀ {p q}, q ∈ f p → ∃ cs, R p.place q.place cs ∧ q.captures = p.captures ++ cs
  forks : ∀ {p q a}, q ∈ f p → a ∈ q.forks →
    (a ∈ p.forks ∧ q.place = p.place) ∨ (owned a ∧ ∀ j, resume a q.place j → R.Links p.place j)
  complete : ∀ {p j}, R.Links p.place j →
    (∃ q ∈ f p, q.place = j) ∨ ∃ a ∈ p.forks, owned a ∧ resume a p.place j
  keeps : tracked = true → ∀ {p q a}, q ∈ f p → q.place = p.place → a ∈ p.forks → a ∈ q.forks

/-- The part can be described by some relation `resume`. -/
def Explored (tracked : Bool) (f : Path → List Path) (R : Step) (owned : Address → Prop) : Prop :=
  ∃ resume, Explores tracked f R owned resume

variable {tracked : Bool} {R S : Step} {O P : Address → Prop}

theorem Explores.links {resume} (h : Explores tracked f R O resume) (hq : q ∈ f p) :
    R.Links p.place q.place := by
  obtain ⟨cs, span, -⟩ := h.sound hq
  exact ⟨cs, span⟩

theorem Step.Advances.reads (hR : R.Advances) {i j : Place} (h : R.Links i j) :
    ∃ w, i.Reads w j := by
  obtain ⟨cs, span⟩ := h
  exact hR span

namespace Explored

/-- The forks of a part may be looked for in a larger set. -/
theorem mono (h : Explored tracked f R O) (sub : ∀ a, O a → P a) : Explored tracked f R P := by
  obtain ⟨resume, h⟩ := h
  refine ⟨resume, h.sound, fun hq ha => ?_, fun hj => ?_, h.keeps⟩
  · exact (h.forks hq ha).imp_right fun ⟨own, later⟩ => ⟨sub _ own, later⟩
  · exact (h.complete hj).imp_right fun ⟨a, ha, own, at'⟩ => ⟨a, ha, sub _ own, at'⟩

theorem congr (h : Explored tracked f R O) (same : ∀ p, f p = g p) : Explored tracked g R O :=
  (funext same : f = g) ▸ h

/-- A part that takes nothing and comes by no fork. -/
theorem stay : Explored tracked (fun p => [p]) Step.stay fun _ => False := by
  refine ⟨fun _ _ _ => False, fun hq => ?_, fun hq ha => ?_, fun hj => ?_, fun _ {p q a} hq _ => ?_⟩
  · obtain rfl := List.mem_singleton.1 hq
    exact ⟨[], ⟨rfl, rfl⟩, (List.append_nil _).symm⟩
  · obtain rfl := List.mem_singleton.1 hq
    exact .inl ⟨ha, rfl⟩
  · exact .inl ⟨_, List.mem_singleton_self _, (Step.links_stay.1 hj).symm⟩
  · obtain rfl := List.mem_singleton.1 hq
    exact id

/-- One part after the other. -/
theorem comp (hf : Explored tracked f R O) (hg : Explored tracked g S P) (hR : R.Advances)
    (hS : S.Advances) (apart : ∀ a, O a → ¬ P a) :
    Explored tracked (fun p => follow (f p) g) (R.comp S) fun a => O a ∨ P a := by
  obtain ⟨rf, hf⟩ := hf
  obtain ⟨rg, hg⟩ := hg
  refine ⟨fun a i j => (O a ∧ ∃ k, rf a i k ∧ S.Links k j) ∨ (P a ∧ rg a i j), fun hq => ?_,
    fun {p q a} hq ha => ?_, fun {p j} hj => ?_, fun t {p q a} hq same ha => ?_⟩
  · obtain ⟨m, hm, hq⟩ := mem_of_mem_follow hq
    obtain ⟨cs₁, first, e₁⟩ := hf.sound hm
    obtain ⟨cs₂, later, e₂⟩ := hg.sound hq
    exact ⟨cs₁ ++ cs₂, ⟨_, cs₁, cs₂, first, later, rfl⟩, by rw [e₂, e₁, List.append_assoc]⟩
  · obtain ⟨m, hm, hq⟩ := mem_of_mem_follow hq
    rcases hg.forks hq ha with ⟨ha, same⟩ | ⟨own, later⟩
    · rcases hf.forks hm ha with ⟨ha, same'⟩ | ⟨own, later⟩
      · exact .inl ⟨ha, same.trans same'⟩
      · refine .inr ⟨.inl own, fun j => ?_⟩
        rintro (⟨-, k, hk, hj⟩ | ⟨other, -⟩)
        · exact Step.links_comp.2 ⟨k, later k (same ▸ hk), hj⟩
        · exact (apart _ own other).elim
    · refine .inr ⟨.inr own, fun j => ?_⟩
      rintro (⟨other, -⟩ | ⟨-, hj⟩)
      · exact (apart _ other own).elim
      · exact Step.links_comp.2 ⟨m.place, hf.links hm, later j hj⟩
  · obtain ⟨k, hk, hj'⟩ := Step.links_comp.1 hj
    rcases hf.complete hk with ⟨m, hm, rfl⟩ | ⟨a, ha, own, at'⟩
    · rcases hg.complete hj' with ⟨q, hq, rfl⟩ | ⟨a, ha, own, at'⟩
      · obtain ⟨r, hr, same⟩ := exists_mem_follow hm hq
        obtain ⟨l, hl, hr'⟩ := mem_of_mem_follow hr
        obtain ⟨_, hu⟩ := (hR.comp hS).reads (Step.links_comp.2 ⟨_, hf.links hl, hg.links hr'⟩)
        obtain ⟨_, hv⟩ := (hR.comp hS).reads hj
        exact .inl ⟨r, hr, hu.unique hv same⟩
      · rcases hf.forks hm ha with ⟨ha, same⟩ | ⟨other, -⟩
        · exact .inr ⟨a, ha, .inr own, .inr ⟨own, same ▸ at'⟩⟩
        · exact (apart _ other own).elim
    · exact .inr ⟨a, ha, .inl own, .inl ⟨own, k, at', hj'⟩⟩
  · obtain ⟨m, hm, hq⟩ := mem_of_mem_follow hq
    obtain ⟨_, hu⟩ := hR.reads (hf.links hm)
    obtain ⟨_, hv⟩ := hS.reads (hg.links hq)
    have stays : m.place = p.place :=
      hu.eq_of_offset_eq (by have := hu.offset_le; have := hv.offset_le; rw [same] at *; omega)
    exact hg.keeps t hq (same.trans stays.symm) (hf.keeps t hm stays ha)

/-- One part or the other. -/
theorem union (hf : Explored tracked f R O) (hg : Explored tracked g S P) (hR : R.Advances)
    (hS : S.Advances) (apart : ∀ a, O a → ¬ P a) :
    Explored tracked (fun p => addAll (f p) (g p)) (R.union S) fun a => O a ∨ P a := by
  obtain ⟨rf, hf⟩ := hf
  obtain ⟨rg, hg⟩ := hg
  refine ⟨fun a i j => (O a ∧ rf a i j) ∨ (P a ∧ rg a i j), fun hq => ?_, fun hq ha => ?_,
    fun {p j} hj => ?_, fun t {p q a} hq => ?_⟩
  · rcases mem_of_mem_addAll hq with hq | hq
    · obtain ⟨cs, span, e⟩ := hf.sound hq
      exact ⟨cs, .inl span, e⟩
    · obtain ⟨cs, span, e⟩ := hg.sound hq
      exact ⟨cs, .inr span, e⟩
  · rcases mem_of_mem_addAll hq with hq | hq
    · refine (hf.forks hq ha).imp_right fun ⟨own, later⟩ => ⟨.inl own, fun j => ?_⟩
      rintro (⟨-, hj⟩ | ⟨other, -⟩)
      · exact Step.links_union.2 (.inl (later j hj))
      · exact (apart _ own other).elim
    · refine (hg.forks hq ha).imp_right fun ⟨own, later⟩ => ⟨.inr own, fun j => ?_⟩
      rintro (⟨other, -⟩ | ⟨-, hj⟩)
      · exact (apart _ other own).elim
      · exact Step.links_union.2 (.inr (later j hj))
  · rcases Step.links_union.1 hj with h | h
    · rcases hf.complete h with ⟨q, hq, e⟩ | ⟨a, ha, own, at'⟩
      · exact .inl ⟨q, mem_addAll_of_mem hq, e⟩
      · exact .inr ⟨a, ha, .inl own, .inl ⟨own, at'⟩⟩
    · rcases hg.complete h with ⟨q, hq, rfl⟩ | ⟨a, ha, own, at'⟩
      · obtain ⟨r, hr, same⟩ := exists_mem_addAll hq
        have link : (R.union S).Links p.place r.place := by
          rcases mem_of_mem_addAll hr with hr | hr
          · exact Step.links_union.2 (.inl (hf.links hr))
          · exact Step.links_union.2 (.inr (hg.links hr))
        obtain ⟨_, hu⟩ := (hR.union hS).reads link
        obtain ⟨_, hv⟩ := (hR.union hS).reads hj
        exact .inl ⟨r, hr, hu.unique hv same⟩
      · exact .inr ⟨a, ha, .inr own, .inr ⟨own, at'⟩⟩
  · rcases mem_of_mem_addAll hq with hq | hq
    · exact hf.keeps t hq
    · exact hg.keeps t hq

/-- Once more or not, whichever is preferred. -/
theorem prefer (greedy : Bool) (hf : Explored tracked f R O) (hR : R.Advances) :
    Explored tracked (fun p => prefer greedy (f p) [p]) (R.union Step.stay) O := by
  have none (a : Address) : ¬ False := id
  cases greedy with
  | true =>
    exact (hf.union .stay hR Step.stay_advances fun a _ => none a).mono fun a h =>
      h.resolve_right id
  | false =>
    have h := (stay).union hf Step.stay_advances hR fun a no _ => no
    have comm : Step.stay.union R = R.union Step.stay := by
      funext p q cs; exact propext or_comm
    rw [comm] at h
    exact h.mono fun a h => h.resolve_left id

/-- A part behind a fork `a`, where forks are tracked. -/
theorem behind (forked : Bool) (hf : Explored tracked f R O) (fresh : ¬ O a) :
    Explored tracked
      (fun p => match if forked then p.passFork? a else some p with
        | some p => f p
        | none => [])
      R fun b => b = a ∨ O b := by
  cases forked with
  | false => exact (hf.mono fun b => .inr)
  | true =>
    obtain ⟨resume, hf⟩ := hf
    have enter (p : Path) : (match if true then p.passFork? a else some p with
        | some p => f p
        | none => []) = if a ∈ p.forks then [] else f (p.past a) := by
      by_cases h : a ∈ p.forks <;> simp [Path.passFork?_eq, h]
    refine congr (f := fun p => if a ∈ p.forks then [] else f (p.past a)) ?_
      fun p => (enter p).symm
    refine ⟨fun b i j => if b = a then R.Links i j else resume b i j, fun {p q} hq => ?_,
      fun {p q b} hq hb => ?_, fun {p j} hj => ?_, fun t {p q b} hq same hb => ?_⟩
    · split at hq
      · simp at hq
      · exact hf.sound (p := p.past a) hq
    · split at hq
      · simp at hq
      · rcases hf.forks hq hb with ⟨hb, same⟩ | ⟨own, later⟩
        · rcases Path.mem_past_forks.1 hb with rfl | hb
          · refine .inr ⟨.inl rfl, fun j hj => ?_⟩
            rw [if_pos rfl, same] at hj
            exact hj
          · exact .inl ⟨hb, same⟩
        · have ne : b ≠ a := fun e => fresh (e ▸ own)
          exact .inr ⟨.inr own, fun j hj => later j (by rwa [if_neg ne] at hj)⟩
    · by_cases h : a ∈ p.forks
      · exact .inr ⟨a, h, .inl rfl, by rwa [if_pos rfl]⟩
      · rcases hf.complete (p := p.past a) hj with ⟨q, hq, e⟩ | ⟨b, hb, own, at'⟩
        · exact .inl ⟨q, by rwa [if_neg h], e⟩
        · have ne : b ≠ a := fun e => fresh (e ▸ own)
          exact .inr ⟨b, (Path.mem_past_forks.1 hb).resolve_left ne, .inr own, by rwa [if_neg ne]⟩
    · split at hq
      · simp at hq
      · exact hf.keeps t hq same (Path.mem_past_forks.2 (.inr hb))

end Explored

end StepMatch.Regex
