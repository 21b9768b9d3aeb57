import Mathlib.Data.Set.Card
import StepMatch.Locale.Calls
import StepMatch.Proofs.Locale.Tags

/-!
# A memo publishes once

Of calls that are made one after the other, the first one for a locale whose builder succeeds decides what
is kept for it. So what a memo keeps can be read off the calls (`get?_memoAfter`), an entry never changes,
and the entries count the locales that were asked for with success.
-/

namespace StepMatch

variable {ι ε α : Type}

namespace LocaleMemo

variable {m : LocaleMemo α} {l l' : Locale} {a : α}

/-- Publishing adds an entry where there is none, and changes no other. -/
theorem get?_publish_eq_or (m : LocaleMemo α) (l l' : Locale) (a : α) :
    (m.publish l a).2.get? l' = (m.get? l').or (if l = l' then some a else none) := by
  rw [get?_publish]
  by_cases same : l' = l
  · subst same
    cases known : m.get? l' with
    | some kept => simp [publish_of_some known]
    | none => simp [(publish_of_none known a).1]
  · simp [same, Ne.symm same]

/-- What publishing gives is kept then. -/
theorem get?_publish_self (m : LocaleMemo α) (l : Locale) (a : α) :
    (m.publish l a).2.get? l = some (m.publish l a).1 := by
  rw [get?_publish, if_pos rfl]

/-- The entries are as many as the locales that something is kept for. -/
theorem size_eq_ncard (m : LocaleMemo α) : m.size = {l | (m.get? l).isSome = true}.ncard := by
  have known : {l | (m.get? l).isSome = true} = ↑(m.entries.map Prod.fst).toFinset := by
    ext l
    rw [Set.mem_ofPred_eq, Finset.mem_coe, List.mem_toFinset, ← not_iff_not, ← get?_eq_none_iff,
      Option.not_isSome_iff_eq_none]
  rw [known, Set.ncard_coe_finset, List.toFinset_card_of_nodup m.distinct, List.length_map, size]

end LocaleMemo

namespace MemoCall

variable {c : MemoCall ε α} {m : LocaleMemo α} {calls before later : List (MemoCall ε α)} {l : Locale} {a : α}

/-- What the first builder makes that succeeds for a locale, of calls in order. -/
def firstBuilt? (l : Locale) (calls : List (MemoCall ε α)) : Option α :=
  calls.findSome? fun c => if c.locale = l then c.outcome.toOption else none

/-- Some step of the call, made at once, is that its builder is run. -/
def RunsBuilder (c : MemoCall ε α) (m : LocaleMemo α) : Prop :=
  ∃ k, (c.step^[k] (.looking, m)).1 = .building

/-- The locales for which some call succeeds, of calls that are made one after the other. -/
def served (calls : List (MemoCall ε α)) : Set Locale :=
  {l | ∃ before c a, before ++ [c] <+: calls ∧ c.locale = l ∧ (c.answer (memoAfter before)).1 = .ok a}

/-- What calls come to that are made one after the other. -/
structure PublishInOrder (calls : List (MemoCall ε α)) : Prop where
  /-- The steps of a call, one right after the other, come to its answer. -/
  course : ∀ c ∈ calls, ∀ m, c.step^[3] (.looking, m) = (.answered (c.answer m).1, (c.answer m).2)
  /-- A builder is run exactly when there is no entry for the locale. -/
  builds : ∀ before c, before ++ [c] <+: calls →
    (c.RunsBuilder (memoAfter before) ↔ (memoAfter before).get? c.locale = none)
  /-- A call that succeeds gives what the first builder made that succeeded for the locale. -/
  returns : ∀ before c a, before ++ [c] <+: calls → (c.answer (memoAfter before)).1 = .ok a →
    firstBuilt? c.locale calls = some a
  /-- A call that fails gives what its own builder failed with, and leaves the memo as it is. -/
  fails : ∀ before c e, before ++ [c] <+: calls → (c.answer (memoAfter before)).1 = .error e →
    c.outcome = .error e ∧ memoAfter (before ++ [c]) = memoAfter before
  /-- A call fails only if no builder succeeded for the locale so far, its own included. -/
  succeeds : ∀ before c a, before ++ [c] <+: calls → firstBuilt? c.locale (before ++ [c]) = some a →
    (c.answer (memoAfter before)).1 = .ok a
  /-- An entry stays as it is. -/
  keeps : ∀ before l a, before <+: calls → (memoAfter before).get? l = some a →
    (memoAfter calls).get? l = some a
  /-- The entries are as many as the locales for which some call succeeded. -/
  size : (memoAfter calls).size = (served calls).ncard
  /-- These can be counted by their tags. -/
  tags : (∀ l ∈ served calls, l.IsNamed) → (memoAfter calls).size = (Locale.tag '' served calls).ncard

/-! ### One call -/

/-- What is kept is the answer. -/
theorem answer_of_some {kept : α} (known : m.get? c.locale = some kept) : c.answer m = (.ok kept, m) := by
  cases c with
  | build l make =>
    have known : m.get? l = some kept := known
    simp only [answer, LocaleMemo.getOrBuild, known]
  | tryBuild l make =>
    have known : m.get? l = some kept := known
    simp only [answer, LocaleMemo.getOrTryBuild, known]

/-- Where nothing is kept, the answer is what the builder comes to. -/
theorem answer_of_none (unknown : m.get? c.locale = none) :
    c.answer m = (c.outcome, c.outcome.toOption.elim m fun a => (m.publish c.locale a).2) := by
  cases c with
  | build l make =>
    have unknown : m.get? l = none := unknown
    simp only [answer, LocaleMemo.getOrBuild, unknown, locale, outcome, Except.toOption, Option.elim,
      (LocaleMemo.publish_of_none unknown _).1]
  | tryBuild l make =>
    have unknown : m.get? l = none := unknown
    simp only [answer, LocaleMemo.getOrTryBuild, unknown, locale, outcome]
    cases make () with
    | error e => rfl
    | ok a => simp only [Except.map, Except.toOption, Option.elim, (LocaleMemo.publish_of_none unknown a).1]

/-- A call adds what its builder made to the memo, if that is needed. -/
theorem get?_answer (c : MemoCall ε α) (m : LocaleMemo α) (l : Locale) : (c.answer m).2.get? l =
    (m.get? l).or (if c.locale = l then c.outcome.toOption else none) := by
  cases known : m.get? c.locale with
  | some kept =>
    rw [answer_of_some known]
    by_cases same : c.locale = l
    · rw [← same, known, Option.some_or]
    · simp [same]
  | none =>
    rw [answer_of_none known]
    cases c.outcome with
    | ok a => exact m.get?_publish_eq_or c.locale l a
    | error e => simp [Except.toOption]

/-- What a call gives is kept then. -/
theorem get?_of_answer (given : (c.answer m).1 = .ok a) : (c.answer m).2.get? c.locale = some a := by
  cases known : m.get? c.locale with
  | some kept =>
    rw [answer_of_some known] at given ⊢
    rw [known, Except.ok.inj given]
  | none =>
    rw [get?_answer, known, if_pos rfl, Option.none_or]
    rw [answer_of_none known] at given
    have made : c.outcome = .ok a := given
    rw [made]
    rfl

/-- Only a call without an entry to give can fail. -/
theorem of_failed {e : ε} (failed : (c.answer m).1 = .error e) :
    m.get? c.locale = none ∧ c.outcome = .error e ∧ (c.answer m).2 = m := by
  cases known : m.get? c.locale with
  | some kept =>
    rw [answer_of_some known] at failed
    cases failed
  | none =>
    rw [answer_of_none known] at failed ⊢
    have own : c.outcome = .error e := failed
    exact ⟨rfl, own, by rw [own]; rfl⟩

theorem iterate_answered (c : MemoCall ε α) (m : LocaleMemo α) (r : Except ε α) (k : Nat) :
    c.step^[k] (.answered r, m) = (.answered r, m) :=
  Function.iterate_fixed (f := c.step) rfl k

/-- The steps of a call that nothing comes in between of. -/
theorem iterate_step (c : MemoCall ε α) (m : LocaleMemo α) :
    c.step^[3] (.looking, m) = (.answered (c.answer m).1, (c.answer m).2) := by
  rw [Function.iterate_succ_apply]
  cases known : m.get? c.locale with
  | some kept =>
    have looked : c.step (.looking, m) = (.answered (.ok kept), m) := by simp [step, known]
    rw [looked, iterate_answered, answer_of_some known]
  | none =>
    have looked : c.step (.looking, m) = (.building, m) := by simp [step, known]
    rw [looked, Function.iterate_succ_apply, answer_of_none known]
    cases made : c.outcome with
    | error e =>
      have built : c.step (.building, m) = (.answered (.error e), m) := by simp [step, made]
      rw [built, iterate_answered]
      rfl
    | ok a =>
      have built : c.step (.building, m) = (.publishing a, m) := by simp [step, made]
      rw [built, Function.iterate_one]
      simp only [step, (LocaleMemo.publish_of_none known a).1]
      rfl

theorem runsBuilder_iff : c.RunsBuilder m ↔ m.get? c.locale = none := by
  constructor
  · rintro ⟨k, runs⟩
    by_contra known
    obtain ⟨kept, known⟩ := Option.ne_none_iff_exists'.1 known
    have looked : c.step (.looking, m) = (.answered (.ok kept), m) := by simp [step, known]
    cases k with
    | zero => cases runs
    | succ k =>
      rw [Function.iterate_succ_apply, looked, iterate_answered] at runs
      cases runs
  · intro unknown
    exact ⟨1, by simp [step, unknown]⟩

/-! ### Calls in order -/

theorem memoAfter_append (before later : List (MemoCall ε α)) :
    memoAfter (before ++ later) = later.foldl (fun m c => (c.answer m).2) (memoAfter before) :=
  List.foldl_append

theorem memoAfter_concat (calls : List (MemoCall ε α)) (c : MemoCall ε α) :
    memoAfter (calls ++ [c]) = (c.answer (memoAfter calls)).2 := memoAfter_append calls [c]

theorem firstBuilt?_concat (l : Locale) (calls : List (MemoCall ε α)) (c : MemoCall ε α) :
    firstBuilt? l (calls ++ [c]) =
      (firstBuilt? l calls).or (if c.locale = l then c.outcome.toOption else none) := by
  rw [firstBuilt?, List.findSome?_append, List.findSome?_singleton, firstBuilt?]

/-- The memo keeps what the first builder made that succeeded for a locale. -/
theorem get?_memoAfter (calls : List (MemoCall ε α)) (l : Locale) :
    (memoAfter calls).get? l = firstBuilt? l calls := by
  induction calls using List.reverseRecOn with
  | nil => rfl
  | append_singleton calls c ih => rw [memoAfter_concat, get?_answer, ih, firstBuilt?_concat]

theorem firstBuilt?_of_prefix (start : before <+: calls) (h : firstBuilt? l before = some a) :
    firstBuilt? l calls = some a := by
  obtain ⟨later, rfl⟩ := start
  rw [firstBuilt?] at h ⊢
  rw [List.findSome?_append, h, Option.some_or]

/-- Something is kept for the locales for which some call succeeded. -/
theorem mem_served_iff : l ∈ served calls ↔ ((memoAfter calls).get? l).isSome = true := by
  constructor
  · rintro ⟨before, c, a, start, rfl, given⟩
    have kept := get?_of_answer given
    rw [← memoAfter_concat, get?_memoAfter] at kept
    rw [get?_memoAfter, firstBuilt?_of_prefix start kept]
    rfl
  · induction calls using List.reverseRecOn with
    | nil => simp [memoAfter, LocaleMemo.empty, LocaleMemo.get?]
    | append_singleton calls c ih =>
      intro kept
      cases known : (memoAfter calls).get? l with
      | some a =>
        obtain ⟨before, d, a, start, own, given⟩ := ih (by rw [known]; rfl)
        exact ⟨before, d, a, start.trans (List.prefix_append _ _), own, given⟩
      | none =>
        rw [memoAfter_concat, get?_answer, known, Option.none_or] at kept
        split at kept
        · rename_i own
          cases made : c.outcome with
          | error e => simp [made, Except.toOption] at kept
          | ok a =>
            refine ⟨calls, c, a, List.prefix_refl _, own, ?_⟩
            rw [answer_of_none (own ▸ known), made]
        · cases kept

theorem served_eq (calls : List (MemoCall ε α)) :
    served calls = {l | ((memoAfter calls).get? l).isSome = true} :=
  Set.ext fun _ => mem_served_iff

theorem publishInOrder (calls : List (MemoCall ε α)) : PublishInOrder calls := by
  have size : (memoAfter calls).size = (served calls).ncard := by
    rw [served_eq, LocaleMemo.size_eq_ncard]
  refine ⟨fun c _ => c.iterate_step, fun before c _ => runsBuilder_iff, ?_, ?_, ?_, ?_, size, ?_⟩
  · intro before c a start given
    have kept := get?_of_answer given
    rw [← memoAfter_concat, get?_memoAfter] at kept
    exact firstBuilt?_of_prefix start kept
  · intro before c e _ failed
    obtain ⟨-, own, same⟩ := of_failed failed
    exact ⟨own, by rw [memoAfter_concat, same]⟩
  · intro before c a _ first
    rw [← get?_memoAfter, memoAfter_concat] at first
    cases given : (c.answer (memoAfter before)).1 with
    | ok b =>
      rw [get?_of_answer given] at first
      rw [Option.some.inj first]
    | error e =>
      obtain ⟨unknown, -, same⟩ := of_failed given
      rw [same, unknown] at first
      cases first
  · intro before l a start kept
    rw [get?_memoAfter] at kept ⊢
    exact firstBuilt?_of_prefix start kept
  · intro named
    rw [size, (Locale.tag_injOn.mono named).ncard_image]

end MemoCall
end StepMatch
