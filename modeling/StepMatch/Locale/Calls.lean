import StepMatch.Locale.Memo

/-!
# Calls on a memo

A call asks a memo for what is kept for a locale and brings a builder along. It takes up to three steps: it
looks the locale up; if nothing is kept, its builder is run, while the memo is left alone; and what the
builder makes is published. A memo may be shared, and then other calls take steps of theirs in between.
-/

namespace StepMatch

variable {ι ε α : Type}

/-- A call with a builder that cannot fail, or with one that can. -/
inductive MemoCall (ε α : Type) where
  | build (l : Locale) (make : Unit → α)
  | tryBuild (l : Locale) (make : Unit → Except ε α)

namespace MemoCall

/-- The locale that is asked for. -/
def locale : MemoCall ε α → Locale
  | .build l _ | .tryBuild l _ => l

/-- What the builder comes to when it is run. -/
def outcome : MemoCall ε α → Except ε α
  | .build _ make => .ok (make ())
  | .tryBuild _ make => make ()

/-- The answer to a call that nothing comes in between of, and the memo then. A call that fails has no
memo to give, and leaves the one that was there. -/
def answer (c : MemoCall ε α) (m : LocaleMemo α) : Except ε α × LocaleMemo α :=
  match c with
  | .build l make =>
    let (a, m') := m.getOrBuild l make
    (.ok a, m')
  | .tryBuild l make =>
    match m.getOrTryBuild l make with
    | .ok (a, m') => (.ok a, m')
    | .error e => (.error e, m)

/-- The memo after calls that were made one after the other. -/
def memoAfter (calls : List (MemoCall ε α)) : LocaleMemo α :=
  calls.foldl (fun m c => (c.answer m).2) .empty

/-- How far a call has come. -/
inductive Stage (ε α : Type) where
  /-- The locale is looked up next. -/
  | looking
  /-- Nothing was kept, and the builder is run next. -/
  | building
  /-- The builder has made something, which is published next. -/
  | publishing (a : α)
  | answered (result : Except ε α)

/-- The next step of a call, if it has not been answered. -/
def step (c : MemoCall ε α) : Stage ε α × LocaleMemo α → Stage ε α × LocaleMemo α
  | (.looking, m) =>
    match m.get? c.locale with
    | some kept => (.answered (.ok kept), m)
    | none => (.building, m)
  | (.building, m) =>
    match c.outcome, m with
    | .ok a, m => (.publishing a, m)
    | .error e, m => (.answered (.error e), m)
  | (.publishing a, m) =>
    let (kept, m') := m.publish c.locale a
    (.answered (.ok kept), m')
  | (.answered result, m) => (.answered result, m)

end MemoCall

/-- Calls that share a memo, told apart by names. -/
structure MemoRun (ι ε α : Type) where
  memo : LocaleMemo α := .empty
  stages : ι → MemoCall.Stage ε α := fun _ => .looking
  /-- The calls that have published, in the order in which they did. -/
  published : List ι := []

namespace MemoRun

variable [DecidableEq ι] (call : ι → MemoCall ε α)

/-- The run after one of the calls has taken its next step. -/
def advance (s : MemoRun ι ε α) (i : ι) : MemoRun ι ε α :=
  let (stage, memo) := (call i).step (s.stages i, s.memo)
  { memo
    stages := fun j => if j = i then stage else s.stages j
    published := match s.stages i with
      | .publishing _ => s.published ++ [i]
      | _ => s.published }

/-- The run after calls have taken steps in the order of a schedule. -/
def after (schedule : List ι) : MemoRun ι ε α := schedule.foldl (advance call) {}

end MemoRun
end StepMatch
