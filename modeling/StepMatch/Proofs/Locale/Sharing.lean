import StepMatch.Proofs.Locale.Publishing

/-!
# Calls that share a memo

The calls on a memo may take their steps in any order. A builder may then be run although another one is at
work for the same locale, and what it makes may come too late. What holds of calls that are made one after
the other still does, with the calls in the order in which they publish: each step keeps it (`Sound.of_advances`).
-/

namespace StepMatch

variable {ι ε α : Type}

/-- How far a call has come, in steps. One that is answered early has skipped the rest. -/
def MemoCall.Stage.rank : MemoCall.Stage ε α → Nat
  | .looking => 0
  | .building => 1
  | .publishing _ => 2
  | .answered _ => 3

namespace MemoRun

open MemoCall (firstBuilt? Stage)

variable [DecidableEq ι] {call : ι → MemoCall ε α} {s : MemoRun ι ε α} {before schedule : List ι}

/-! ### One step -/

/-- The run with one call at another stage. -/
def put (s : MemoRun ι ε α) (i : ι) (stage : Stage ε α) : MemoRun ι ε α :=
  { s with stages := fun j => if j = i then stage else s.stages j }

@[simp]
theorem stages_put (s : MemoRun ι ε α) (i j : ι) (stage : Stage ε α) :
    (s.put i stage).stages j = if j = i then stage else s.stages j := rfl

theorem stages_put_cases {i j : ι} {stage stage' : Stage ε α} (h : (s.put i stage).stages j = stage') :
    j = i ∧ stage = stage' ∨ s.stages j = stage' := by
  rw [stages_put] at h
  split at h
  · exact .inl ⟨‹_›, h⟩
  · exact .inr h

/-- The run in which a call has published. -/
def publish (call : ι → MemoCall ε α) (s : MemoRun ι ε α) (i : ι) (a : α) : MemoRun ι ε α :=
  { s.put i (.answered (.ok (s.memo.publish (call i).locale a).1)) with
    memo := (s.memo.publish (call i).locale a).2
    published := s.published ++ [i] }

/-- What the next step of a call can be. -/
inductive Advances (call : ι → MemoCall ε α) (s : MemoRun ι ε α) (i : ι) : MemoRun ι ε α → Prop where
  | hit (a : α) (stage : s.stages i = .looking) (known : s.memo.get? (call i).locale = some a) :
    Advances call s i (s.put i (.answered (.ok a)))
  | miss (stage : s.stages i = .looking) (unknown : s.memo.get? (call i).locale = none) :
    Advances call s i (s.put i .building)
  | made (a : α) (stage : s.stages i = .building) (outcome : (call i).outcome = .ok a) :
    Advances call s i (s.put i (.publishing a))
  | failed (e : ε) (stage : s.stages i = .building) (outcome : (call i).outcome = .error e) :
    Advances call s i (s.put i (.answered (.error e)))
  | published (a : α) (stage : s.stages i = .publishing a) : Advances call s i (s.publish call i a)
  | done (r : Except ε α) (stage : s.stages i = .answered r) : Advances call s i s

theorem advances (call : ι → MemoCall ε α) (s : MemoRun ι ε α) (i : ι) :
    Advances call s i (s.advance call i) := by
  cases stage : s.stages i with
  | looking =>
    cases known : s.memo.get? (call i).locale with
    | some a =>
      have step : s.advance call i = s.put i (.answered (.ok a)) := by
        simp only [advance, put, MemoCall.step, stage, known]
      exact step ▸ .hit a stage known
    | none =>
      have step : s.advance call i = s.put i .building := by
        simp only [advance, put, MemoCall.step, stage, known]
      exact step ▸ .miss stage known
  | building =>
    cases outcome : (call i).outcome with
    | ok a =>
      have step : s.advance call i = s.put i (.publishing a) := by
        simp only [advance, put, MemoCall.step, stage, outcome]
      exact step ▸ .made a stage outcome
    | error e =>
      have step : s.advance call i = s.put i (.answered (.error e)) := by
        simp only [advance, put, MemoCall.step, stage, outcome]
      exact step ▸ .failed e stage outcome
  | publishing a =>
    have step : s.advance call i = s.publish call i a := by
      simp only [advance, publish, put, MemoCall.step, stage]
    exact step ▸ .published a stage
  | answered r =>
    have same : (fun j => if j = i then .answered r else s.stages j) = s.stages := by
      funext j
      split
      · rename_i own
        rw [own, stage]
      · rfl
    have step : s.advance call i = s := by
      simp only [advance, MemoCall.step, stage, same]
    exact step.symm ▸ .done r stage

/-- A call that does not take the step stays where it is. -/
theorem stages_advance_of_ne {i j : ι} (other : j ≠ i) : (s.advance call i).stages j = s.stages j :=
  if_neg other

namespace Advances

variable {s' : MemoRun ι ε α} {i : ι}

theorem rank (h : Advances call s i s') : min 3 ((s.stages i).rank + 1) ≤ (s'.stages i).rank := by
  cases h with
  | hit a stage | miss stage | made a stage | failed e stage | published a stage | done r stage =>
    simp [stage, Stage.rank, publish]

/-- An entry stays as it is. -/
theorem keeps (h : Advances call s i s') {l : Locale} {a : α} (kept : s.memo.get? l = some a) :
    s'.memo.get? l = some a := by
  cases h with
  | hit | miss | made | failed | done => exact kept
  | published b => rw [publish, LocaleMemo.get?_publish_eq_or, kept, Option.some_or]

/-- A call that is answered takes no more steps. -/
theorem of_answered (h : Advances call s i s') {r : Except ε α} (stage : s.stages i = .answered r) :
    s' = s := by
  cases h with
  | done => rfl
  | hit a other | miss other | made a other | failed e other | published a other =>
    rw [stage] at other
    cases other

/-- A builder is run next if nothing was found. -/
theorem of_building (h : Advances call s i s') (runs : s'.stages i = .building) :
    s.stages i = .looking ∧ s.memo.get? (call i).locale = none := by
  cases h with
  | miss stage unknown => exact ⟨stage, unknown⟩
  | done r stage =>
    rw [stage] at runs
    cases runs
  | hit | made | failed | published => simp [publish] at runs

/-- A step that changes the memo gives something. -/
theorem memo_eq_or (h : Advances call s i s') : s'.memo = s.memo ∨ ∃ a, s'.stages i = .answered (.ok a) := by
  cases h with
  | hit | miss | made | failed | done => exact .inl rfl
  | published a => exact .inr ⟨_, if_pos rfl⟩

end Advances

/-- An answer is final. -/
theorem answered_advance {j : ι} {r : Except ε α} (i : ι) (h : s.stages j = .answered r) :
    (s.advance call i).stages j = .answered r := by
  by_cases own : j = i
  · rw [(advances call s i).of_answered (own ▸ h), h]
  · rw [stages_advance_of_ne own, h]

/-! ### Every state that is reached -/

/-- What holds between the steps. -/
structure Sound (call : ι → MemoCall ε α) (s : MemoRun ι ε α) : Prop where
  /-- What is kept is what the first builder made, of the calls that have published. -/
  kept : ∀ l, s.memo.get? l = firstBuilt? l (s.published.map call)
  made : ∀ i a, s.stages i = .publishing a → (call i).outcome = .ok a
  given : ∀ i a, s.stages i = .answered (.ok a) → s.memo.get? (call i).locale = some a
  failed : ∀ i e, s.stages i = .answered (.error e) → (call i).outcome = .error e
  /-- Some call was given what is kept. -/
  served : ∀ l a, s.memo.get? l = some a → ∃ i, s.stages i = .answered (.ok a) ∧ (call i).locale = l

/-- A step that leaves the memo alone keeps what holds, if it does of the stage the call has come to. -/
theorem Sound.put (h : Sound call s) {i : ι} {stage : Stage ε α} (waits : ∀ r, s.stages i ≠ .answered r)
    (made : ∀ a, stage = .publishing a → (call i).outcome = .ok a)
    (given : ∀ a, stage = .answered (.ok a) → s.memo.get? (call i).locale = some a)
    (failed : ∀ e, stage = .answered (.error e) → (call i).outcome = .error e) :
    Sound call (s.put i stage) := by
  refine ⟨h.kept, fun j a reached => ?_, fun j a reached => ?_, fun j e reached => ?_, fun l a kept => ?_⟩
  · obtain ⟨rfl, own⟩ | other := stages_put_cases reached
    · exact made a own
    · exact h.made j a other
  · obtain ⟨rfl, own⟩ | other := stages_put_cases reached
    · exact given a own
    · exact h.given j a other
  · obtain ⟨rfl, own⟩ | other := stages_put_cases reached
    · exact failed e own
    · exact h.failed j e other
  · obtain ⟨j, answered, locale⟩ := h.served l a kept
    have other : j ≠ i := fun own => waits _ (own ▸ answered)
    exact ⟨j, by rw [stages_put, if_neg other, answered], locale⟩

/-- A call that publishes is given what is kept for its locale. -/
theorem Sound.publish (h : Sound call s) {i : ι} {a : α} (stage : s.stages i = .publishing a) :
    Sound call (s.publish call i a) := by
  have own := s.memo.get?_publish_self (call i).locale a
  have stays : ∀ {l b}, s.memo.get? l = some b →
      (s.memo.publish (call i).locale a).2.get? l = some b := by
    intro l b kept
    rw [LocaleMemo.get?_publish_eq_or, kept, Option.some_or]
  refine ⟨fun l => ?_, fun j b reached => ?_, fun j b reached => ?_, fun j e reached => ?_, fun l b kept => ?_⟩
  · simp only [MemoRun.publish, LocaleMemo.get?_publish_eq_or, h.kept, List.map_append, List.map_cons,
      List.map_nil, MemoCall.firstBuilt?_concat, h.made i a stage, Except.toOption]
  · obtain ⟨-, ⟨⟩⟩ | other := stages_put_cases reached
    exact h.made j b other
  · obtain ⟨rfl, ⟨⟩⟩ | other := stages_put_cases reached
    · exact own
    · exact stays (h.given j b other)
  · obtain ⟨-, ⟨⟩⟩ | other := stages_put_cases reached
    exact h.failed j e other
  · rw [MemoRun.publish] at kept ⊢
    by_cases same : (call i).locale = l
    · rw [← same, own] at kept
      cases kept
      exact ⟨i, if_pos rfl, same⟩
    · rw [LocaleMemo.get?_publish, if_neg (Ne.symm same)] at kept
      obtain ⟨j, answered, locale⟩ := h.served l b kept
      have other : j ≠ i := fun own => same (own ▸ locale)
      exact ⟨j, (if_neg other).trans answered, locale⟩

theorem Sound.of_advances (h : Sound call s) {s' : MemoRun ι ε α} {i : ι} (step : Advances call s i s') :
    Sound call s' := by
  cases step with
  | hit a stage known => exact h.put (by simp [stage]) (by simp) (by simp [known]) (by simp)
  | miss stage => exact h.put (by simp [stage]) (by simp) (by simp) (by simp)
  | made a stage outcome => exact h.put (by simp [stage]) (by simp [outcome]) (by simp) (by simp)
  | failed e stage outcome => exact h.put (by simp [stage]) (by simp) (by simp) (by simp [outcome])
  | published a stage => exact h.publish stage
  | done => exact h

theorem after_concat (call : ι → MemoCall ε α) (schedule : List ι) (i : ι) :
    after call (schedule ++ [i]) = (after call schedule).advance call i := List.foldl_append

/-- What each step keeps holds from then on. -/
theorem of_prefix {P : MemoRun ι ε α → Prop} (keeps : ∀ s i, P s → P (s.advance call i))
    (start : before <+: schedule) (h : P (after call before)) : P (after call schedule) := by
  obtain ⟨later, rfl⟩ := start
  rw [after, List.foldl_append]
  exact List.foldlRecOn later (advance call) h fun s h i _ => keeps s i h

theorem sound (call : ι → MemoCall ε α) (schedule : List ι) : Sound call (after call schedule) := by
  refine of_prefix (fun s i h => Sound.of_advances h (advances call s i)) List.nil_prefix ⟨?_, ?_, ?_, ?_, ?_⟩
  · exact fun l => rfl
  all_goals simp [after, LocaleMemo.get?, LocaleMemo.empty]

/-- A call has taken all its steps if its turn came three times. -/
theorem min_count_le_rank (call : ι → MemoCall ε α) (schedule : List ι) (i : ι) :
    min 3 (schedule.count i) ≤ ((after call schedule).stages i).rank := by
  induction schedule using List.reverseRecOn with
  | nil => simp
  | append_singleton schedule j ih =>
    rw [after_concat]
    by_cases own : i = j
    · subst own
      have step := (advances call (after call schedule) i).rank
      simp only [List.count_append, List.count_singleton_self]
      omega
    · rw [stages_advance_of_ne own]
      simpa [List.count_append, Ne.symm own] using ih

theorem exists_answered {i : ι} (count : 3 ≤ schedule.count i) :
    ∃ r, (after call schedule).stages i = .answered r := by
  have done := min_count_le_rank call schedule i
  rw [min_eq_left count] at done
  cases stage : (after call schedule).stages i with
  | answered r => exact ⟨r, rfl⟩
  | looking | building | publishing => simp [stage, Stage.rank] at done

/-- A builder is run after its call has found nothing. -/
theorem exists_miss {i : ι} (runs : (after call schedule).stages i = .building) :
    ∃ before, before ++ [i] <+: schedule ∧ (after call before).stages i = .looking ∧
      (after call before).memo.get? (call i).locale = none := by
  induction schedule using List.reverseRecOn with
  | nil => cases runs
  | append_singleton schedule j ih =>
    rw [after_concat] at runs
    by_cases own : i = j
    · subst own
      exact ⟨schedule, List.prefix_refl _, (advances call _ i).of_building runs⟩
    · rw [stages_advance_of_ne own] at runs
      obtain ⟨before, start, found⟩ := ih runs
      exact ⟨before, start.trans (List.prefix_append _ _), found⟩

/-- The locales that some call has been given something for. -/
def served (call : ι → MemoCall ε α) (s : MemoRun ι ε α) : Set Locale :=
  {l | ∃ i a, s.stages i = .answered (.ok a) ∧ (call i).locale = l}

/-- What calls come to that share a memo and take their steps in any order. -/
structure PublishInterleaved (call : ι → MemoCall ε α) (schedule : List ι) : Prop where
  /-- A call whose turn comes three times is answered. -/
  answers : ∀ i, 3 ≤ schedule.count i → ∃ r, (after call schedule).stages i = .answered r
  /-- A builder is run only after its call has found no entry for the locale. -/
  builds : ∀ i, (after call schedule).stages i = .building →
    ∃ before, before ++ [i] <+: schedule ∧ (after call before).stages i = .looking ∧
      (after call before).memo.get? (call i).locale = none
  /-- A call that succeeds gives what the first builder made, of the calls for the locale that published. -/
  returns : ∀ i a, (after call schedule).stages i = .answered (.ok a) →
    firstBuilt? (call i).locale ((after call schedule).published.map call) = some a
  /-- A call that fails gives what its own builder failed with, and no step of it changes the memo. -/
  fails : ∀ i e, (after call schedule).stages i = .answered (.error e) →
    (call i).outcome = .error e ∧
      ∀ before, before ++ [i] <+: schedule → (after call (before ++ [i])).memo = (after call before).memo
  /-- An entry stays as it is. -/
  keeps : ∀ before l a, before <+: schedule → (after call before).memo.get? l = some a →
    (after call schedule).memo.get? l = some a
  /-- The entries are as many as the locales for which some call has succeeded. -/
  size : (after call schedule).memo.size = ((after call schedule).served call).ncard
  /-- These can be counted by their tags. -/
  tags : (∀ l ∈ (after call schedule).served call, l.IsNamed) →
    (after call schedule).memo.size = (Locale.tag '' (after call schedule).served call).ncard

omit [DecidableEq ι] in
theorem Sound.served_eq (h : Sound call s) : s.served call = {l | (s.memo.get? l).isSome = true} := by
  ext l
  rw [MemoRun.served, Set.mem_ofPred_eq, Set.mem_ofPred_eq, Option.isSome_iff_exists]
  constructor
  · rintro ⟨i, a, stage, rfl⟩
    exact ⟨a, h.given i a stage⟩
  · rintro ⟨a, kept⟩
    obtain ⟨i, stage, locale⟩ := h.served l a kept
    exact ⟨i, a, stage, locale⟩

theorem publishInterleaved (call : ι → MemoCall ε α) (schedule : List ι) :
    PublishInterleaved call schedule := by
  have sound := sound call schedule
  have size : (after call schedule).memo.size = ((after call schedule).served call).ncard := by
    rw [sound.served_eq, LocaleMemo.size_eq_ncard]
  refine ⟨fun i => exists_answered, fun i => exists_miss, fun i a given => ?_, fun i e failed => ?_, ?_, size,
    fun named => ?_⟩
  · rw [← sound.kept]
    exact sound.given i a given
  · refine ⟨sound.failed i e failed, fun before start => ?_⟩
    rw [after_concat]
    refine (advances call (after call before) i).memo_eq_or.resolve_right ?_
    rintro ⟨a, given⟩
    -- what the call gives is final, and it has given an error
    rw [← after_concat] at given
    have final := of_prefix (P := fun s => s.stages i = .answered (.ok a))
      (fun s j h => answered_advance j h) start given
    rw [failed] at final
    cases final
  · intro before l a start kept
    exact of_prefix (fun s i h => (advances call s i).keeps h) start kept
  · rw [size, (Locale.tag_injOn.mono named).ncard_image]

end MemoRun

/-- What is kept for a locale is published once, whatever is asked for and in whatever order the steps of the
calls are taken. Two calls that look before either of them publishes both run their builder. -/
theorem LocaleMemo.publishes_once :
    (∀ calls : List (MemoCall ε α), MemoCall.PublishInOrder calls) ∧
      (∀ {ι : Type} [DecidableEq ι] (call : ι → MemoCall ε α) (schedule : List ι),
        MemoRun.PublishInterleaved call schedule) ∧
      ∀ (call : Bool → MemoCall ε α) (i : Bool), (MemoRun.after call [false, true]).stages i = .building := by
  refine ⟨MemoCall.publishInOrder, fun call schedule => MemoRun.publishInterleaved call schedule, ?_⟩
  intro call i
  cases i <;> rfl

end StepMatch
