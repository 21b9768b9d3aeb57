import Mathlib
import StepMatch.Object.Stock

/-!
# What is kept does not show

What objects keep agrees with a stock when each entry is what its object would build anew. A
computation gives a result when it does so from whatever agrees, and leaves something that agrees.
This is closed under the ways in which computations are put together, so an object gives what the
data type or the factory that it is gives at once.
-/

namespace StepMatch

/-- Each entry is what its object would build anew. -/
structure Kept.Agrees (s : Stock) (k : Kept) : Prop where
  forms : ∀ o ∈ s.allTypes, ∀ n, o.number? = some n → ∀ l f, (k.forms n).get? l = some f →
    f = o.base.formsIn l
  phrases : ∀ o ∈ s.factories.toList, ∀ l p, (k.phrases o.number).get? l = some p →
    o.base.phrases l = .ok p

/-- Where nothing is kept, nothing disagrees. -/
theorem Kept.agrees_empty (s : Stock) : Kept.Agrees s {} where
  forms _ _ _ _ _ _ h := by cases h
  phrases _ _ _ _ h := by cases h

namespace Keeping

variable {ε ε' α β : Type} {s : Stock}

/-- The computation gives this result whatever is kept, and what it keeps agrees. -/
def Gives (s : Stock) (x : Keeping ε α) (r : Except ε α) : Prop :=
  ∀ k, k.Agrees s → (x.runFrom k).1 = r ∧ (x.runFrom k).2.Agrees s

theorem runFrom_bind (x : Keeping ε α) (f : α → Keeping ε β) (k : Kept) :
    (x >>= f).runFrom k = match x.runFrom k with
      | (.ok a, k') => (f a).runFrom k'
      | (.error e, k') => (.error e, k') := by
  change StateT.run (ExceptT.run (x >>= f)) k = _
  rw [ExceptT.run_bind]
  change (match x.runFrom k with
    | (r, k') => StateT.run (match r with | .ok a => (f a).run | .error e => pure (.error e)) k') = _
  rcases x.runFrom k with ⟨_ | _, k'⟩ <;> rfl

theorem gives_pure (a : α) : Gives s (pure a : Keeping ε α) (.ok a) := fun _ h => ⟨rfl, h⟩

theorem gives_throw (e : ε) : Gives s (throw e : Keeping ε α) (.error e) := fun _ h => ⟨rfl, h⟩

theorem gives_ofResult (r : Except ε α) : Gives s (ofResult r) r := fun _ h => ⟨rfl, h⟩

theorem Gives.bind {x : Keeping ε α} {r : Except ε α} {f : α → Keeping ε β}
    {g : α → Except ε β} (hx : Gives s x r) (hf : ∀ a, Gives s (f a) (g a)) :
    Gives s (x >>= f) (r >>= g) := by
  intro k agrees
  obtain ⟨given, after⟩ := hx k agrees
  rw [runFrom_bind]
  rcases h : x.runFrom k with ⟨e | a, k'⟩
  · rw [h] at given after
    subst given
    exact ⟨rfl, after⟩
  · rw [h] at given after
    subst given
    exact hf a k' after

theorem Gives.bind_ok {x : Keeping ε α} {a : α} {f : α → Keeping ε β} {r : Except ε β}
    (hx : Gives s x (.ok a)) (hf : Gives s (f a) r) : Gives s (x >>= f) r := by
  intro k agrees
  obtain ⟨given, after⟩ := hx k agrees
  rw [runFrom_bind]
  rcases h : x.runFrom k with ⟨e | b, k'⟩
  · rw [h] at given
    cases given
  · rw [h] at given after
    cases given
    exact hf k' after

theorem Gives.bind_error {x : Keeping ε α} {e : ε} {f : α → Keeping ε β}
    (hx : Gives s x (.error e)) : Gives s (x >>= f) (.error e) := by
  intro k agrees
  obtain ⟨given, after⟩ := hx k agrees
  rw [runFrom_bind]
  rcases h : x.runFrom k with ⟨e' | b, k'⟩
  · rw [h] at given after
    cases given
    exact ⟨rfl, after⟩
  · rw [h] at given
    cases given

theorem Gives.mapFault {x : Keeping ε α} {r : Except ε α} (hx : Gives s x r) (f : ε → ε') :
    Gives s (x.mapFault f) (r.mapError f) := by
  intro k agrees
  obtain ⟨given, after⟩ := hx k agrees
  have run : (x.mapFault f).runFrom k = ((x.runFrom k).1.mapError f, (x.runFrom k).2) := by
    simp only [Keeping.mapFault, runFrom, ExceptT.adapt, ExceptT.run_mk, StateT.run_map]
    rfl
  rw [run, given]
  exact ⟨rfl, after⟩

theorem Gives.attempt {x : Keeping ε α} {r : Except ε α} (hx : Gives s x r) :
    Gives s (x.attempt : Keeping ε' (Except ε α)) (.ok r) := by
  intro k agrees
  obtain ⟨given, after⟩ := hx k agrees
  have run : (x.attempt : Keeping ε' _).runFrom k = (.ok (x.runFrom k).1, (x.runFrom k).2) := rfl
  rw [run, given]
  exact ⟨rfl, after⟩

/-- A memo gives what building would give, if it only ever has what building gives. -/
theorem Gives.remember {memo : Kept → LocaleMemo α} {set : LocaleMemo α → Kept → Kept} {l : Locale}
    {build : Keeping ε α} {r : Except ε α} (built : Gives s build r)
    (right : ∀ k, k.Agrees s → ∀ a, (memo k).get? l = some a → r = .ok a)
    (agrees_set : ∀ k, k.Agrees s → ∀ a, r = .ok a → (set ((memo k).publish l a).2 k).Agrees s) :
    Gives s (remember memo set l build) r := by
  intro k agrees
  have looks : (get : Keeping ε Kept).runFrom k = (.ok k, k) := rfl
  unfold Keeping.remember
  rw [runFrom_bind, looks]
  simp only
  cases known : (memo k).get? l with
  | some a => exact ⟨(right k agrees a known).symm, agrees⟩
  | none =>
    obtain ⟨given, after⟩ := built k agrees
    simp only [runFrom_bind]
    rcases h : build.runFrom k with ⟨e | a, k'⟩
    · rw [h] at given after
      exact ⟨given, after⟩
    · rw [h] at given after
      have published : r = .ok ((memo k').publish l a).1 :=
        LocaleMemo.fst_publish (P := fun l' b => l' = l → r = .ok b)
          (fun l' b kept same => right k' after b (same ▸ kept)) (fun _ => given.symm) rfl
      exact ⟨published.symm, agrees_set k' after a given.symm⟩

theorem gives_mapM {f : α → Keeping ε β} {g : α → Except ε β} {as : List α}
    (h : ∀ a ∈ as, Gives s (f a) (g a)) : Gives s (as.mapM f) (as.mapM g) := by
  induction as with
  | nil => exact gives_pure []
  | cons a as ih =>
    simp only [List.mapM_cons]
    have first := h a List.mem_cons_self
    have rest := ih fun b hb => h b (List.mem_cons_of_mem a hb)
    exact first.bind fun b => rest.bind fun bs => gives_pure (b :: bs)

theorem gives_foldlM {f : β → α → Keeping ε β} {g : β → α → Except ε β} {as : List α}
    (h : ∀ b, ∀ a ∈ as, Gives s (f b a) (g b a)) (b : β) :
    Gives s (as.foldlM f b) (as.foldlM g b) := by
  induction as generalizing b with
  | nil => exact gives_pure b
  | cons a as ih =>
    simp only [List.foldlM_cons]
    have rest := ih fun b c hc => h b c (List.mem_cons_of_mem a hc)
    exact (h b a List.mem_cons_self).bind rest

end Keeping

namespace Kept

variable {s : Stock} {k : Kept} {l : Locale}

/-- The forms of an object can be kept under its number: the number stands for no other object. -/
theorem Agrees.setForms (agrees : k.Agrees s) {o : TypeObject} (known : o ∈ s.allTypes) {n : Nat}
    (numbered : o.number? = some n) :
    (k.setForms n ((k.forms n).publish l (o.base.formsIn l)).2).Agrees s where
  forms o' known' n' numbered' l' f h := by
    simp only [Kept.setForms] at h
    split at h
    · rename_i same
      rw [same] at numbered'
      rw [s.typesNumbered.same o' known' o known n numbered' numbered]
      exact LocaleMemo.forall_kept_publish (P := fun l f => f = o.base.formsIn l)
        (agrees.forms o known n numbered) rfl l' f h
    · exact agrees.forms o' known' n' numbered' l' f h
  phrases := agrees.phrases

/-- The phrases of an object can be kept under its number. -/
theorem Agrees.setPhrases (agrees : k.Agrees s) {o : FactoryObject}
    (known : o ∈ s.factories.toList) {p : PhraseSet} (right : o.base.phrases l = .ok p) :
    (k.setPhrases o.number ((k.phrases o.number).publish l p).2).Agrees s where
  forms := agrees.forms
  phrases o' known' l' p' h := by
    simp only [Kept.setPhrases] at h
    split at h
    · rename_i same
      rw [s.factoriesNumbered.same o' known' o known o.number (by rw [same]) rfl]
      exact LocaleMemo.forall_kept_publish (P := fun l p => o.base.phrases l = .ok p)
        (agrees.phrases o known) right l' p' h
    · exact agrees.phrases o' known' l' p' h

end Kept
end StepMatch
