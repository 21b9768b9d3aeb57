import Mathlib.Data.List.Forall2

/-!
# What goes well

What goes well in several steps goes well in each of them, and what fails fails in one of them.
-/

namespace StepMatch

/-- What goes well after something else comes of that going well. -/
theorem ok_of_bind {ε α β : Type*} {x : Except ε α} {f : α → Except ε β} {b : β}
    (h : x.bind f = .ok b) : ∃ a, x = .ok a ∧ f a = .ok b := by
  cases x with
  | error fault => cases h
  | ok a => exact ⟨a, rfl, h⟩

theorem ok_of_map {ε α β : Type*} {x : Except ε α} {f : α → β} {b : β}
    (h : x.map f = .ok b) : ∃ a, x = .ok a ∧ f a = b := by
  cases x with
  | error fault => cases h
  | ok a => exact ⟨a, rfl, Except.ok.inj h⟩

theorem map_eq_error_iff {ε α β : Type*} {x : Except ε α} {f : α → β} {e : ε} :
    x.map f = .error e ↔ x = .error e := by
  cases x <;> simp [Except.map]

theorem error_of_bind {ε α β : Type*} {x : Except ε α} {f : α → Except ε β} {e : ε}
    (h : x.bind f = .error e) : x = .error e ∨ ∃ a, x = .ok a ∧ f a = .error e := by
  cases x with
  | error e' =>
    cases h
    exact .inl rfl
  | ok a => exact .inr ⟨a, rfl, h⟩

theorem exists_ok {ε α : Type*} {x : Except ε α} {p : α → Bool} (h : x.toOption.any p) :
    ∃ a, x = .ok a ∧ p a := by
  cases x with
  | error fault => cases h
  | ok a => exact ⟨a, rfl, h⟩

/-- A failure is one with the fault that evaluation finds. -/
theorem eq_error {ε α : Type*} [DecidableEq ε] {x : Except ε α} {fault : ε}
    (h : (match x with | .error e => decide (e = fault) | .ok _ => false) = true) : x = .error fault := by
  cases x with
  | error e => exact congrArg _ (of_decide_eq_true h)
  | ok a => cases h

/-- Where each one succeeds, all of them succeed. -/
theorem exists_mapM {ε α β : Type} {f : α → Except ε β} {P : α → β → Prop} {as : List α}
    (each : ∀ a ∈ as, ∃ b, f a = .ok b ∧ P a b) : ∃ bs, as.mapM f = .ok bs ∧ List.Forall₂ P as bs := by
  induction as with
  | nil => exact ⟨[], rfl, .nil⟩
  | cons a as ih =>
    obtain ⟨⟨b, own, holds⟩, each⟩ := List.forall_mem_cons.1 each
    obtain ⟨bs, later, rest⟩ := ih each
    exact ⟨b :: bs, by rw [List.mapM_cons, own, later]; rfl, .cons holds rest⟩

/-- Where not all of them succeed, the first one that fails decides. -/
theorem error_of_mapM {ε α β : Type} {f : α → Except ε β} {as : List α} {e : ε}
    (h : as.mapM f = .error e) : ∃ before a after, as = before ++ a :: after ∧
      (∀ b ∈ before, ∃ c, f b = .ok c) ∧ f a = .error e := by
  induction as with
  | nil => cases h
  | cons a as ih =>
    rw [List.mapM_cons] at h
    obtain own | ⟨b, own, h⟩ := error_of_bind h
    · exact ⟨[], a, as, rfl, by simp, own⟩
    · obtain later | ⟨bs, later, h⟩ := error_of_bind h
      · obtain ⟨before, a', after, rfl, succeed, fails⟩ := ih later
        exact ⟨a :: before, a', after, rfl, List.forall_mem_cons.2 ⟨⟨b, own⟩, succeed⟩, fails⟩
      · cases h

/-! ### Faults in other words -/

/-- Steps that are refused with translated faults are refused with translated faults together. -/
theorem mapError_bind {ε ε' α β : Type*} {g : ε → ε'} {x : Except ε α} {x' : Except ε' α}
    {f : α → Except ε β} {f' : α → Except ε' β} (first : x' = x.mapError g)
    (later : ∀ a, f' a = (f a).mapError g) : x'.bind f' = (x.bind f).mapError g := by
  subst first
  cases x with
  | error e => rfl
  | ok a => exact later a

theorem mapError_map {ε ε' α β : Type*} {g : ε → ε'} {x : Except ε α} {x' : Except ε' α} (f : α → β)
    (same : x' = x.mapError g) : x'.map f = (x.map f).mapError g := by
  subst same
  cases x <;> rfl

theorem mapError_foldlM {ε ε' α β : Type} {g : ε → ε'} {f : β → α → Except ε β}
    {f' : β → α → Except ε' β} {as : List α} (each : ∀ b, ∀ a ∈ as, f' b a = (f b a).mapError g) (b : β) :
    as.foldlM f' b = (as.foldlM f b).mapError g := by
  induction as generalizing b with
  | nil => rfl
  | cons a as ih =>
    rw [List.foldlM_cons, List.foldlM_cons]
    exact mapError_bind (each b a List.mem_cons_self)
      (ih fun b a mem => each b a (List.mem_cons_of_mem _ mem))

/-! ### Several things -/

/-- What each of several things comes to decides what all of them come to. -/
theorem toOption_mapM {ε α β γ : Type} {f : α → Except ε γ} {g : β → Except ε γ} {h : α → β} {as : List α}
    (same : ∀ a ∈ as, (f a).toOption = (g (h a)).toOption) :
    (as.mapM f).toOption = ((as.map h).mapM g).toOption := by
  induction as with
  | nil => rfl
  | cons a as ih =>
    obtain ⟨own, others⟩ := List.forall_mem_cons.1 same
    have later := ih others
    rw [List.map_cons, List.mapM_cons, List.mapM_cons]
    cases left : f a <;> cases right : g (h a) <;> rw [left, right] at own <;> cases own
    · rfl
    · cases left' : as.mapM f <;> cases right' : (as.map h).mapM g <;> rw [left', right'] at later <;>
        cases later <;> rfl

/-- Each thing made by a map that may fail is made from one that it is given. -/
theorem forall₂_of_mapM {ε α β : Type} {f : α → Except ε β} {as : List α} {bs : List β}
    (h : as.mapM f = .ok bs) : List.Forall₂ (fun a b => f a = .ok b) as bs := by
  induction as generalizing bs with
  | nil =>
    cases h
    exact .nil
  | cons a as ih =>
    rw [List.mapM_cons] at h
    obtain ⟨b, own, h⟩ := ok_of_bind h
    obtain ⟨bs', later, h⟩ := ok_of_bind h
    cases h
    exact .cons own (ih later)

end StepMatch
