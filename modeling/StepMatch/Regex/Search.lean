import StepMatch.Regex.Basic

/-!
# Searching

A regex that starts at a place of the text can end at several, and come there in several ways.
The ways are listed in order of preference. Of two that make no difference to what follows only the
first is kept.

A repetition of something that may match nothing could go round without end. There are two
disciplines for it, and they differ in what they prefer.

* In the regular discipline a way that comes back to a fork, without a character taken since, ends
  there. A fork is where ways part: alternatives, one more repetition or none. Other ways go on.
* In the backtracking discipline a way that begins a repetition where the last one of the same
  piece began ends there.

A regex that is regular is searched in the first discipline, any other in the second.
-/

namespace StepMatch.Regex

/-- A place in a text: how many characters stand before it, and the text after it. -/
structure Place where
  offset : Nat
  rest : Text
deriving DecidableEq, Repr

/-- A way to match: where it ends, and what its named groups took, in order. -/
structure Outcome where
  place : Place
  captures : List (Text × Text) := []
deriving DecidableEq, Repr

/-- What the group of that name took, the last time that it took part. -/
def Outcome.group? (o : Outcome) (name : Text) : Option Text :=
  (o.captures.reverse.find? fun capture => capture.1 == name).map Prod.snd

/-- How ways that go round without taking a character end. -/
inductive Discipline where
  | regular
  | backtracking
deriving DecidableEq, Repr

/-- A part of a regex: the way to it from the root, last step first. -/
abbrev Address := List Nat

/-- A way through a part of a regex. -/
structure Path extends Outcome where
  /-- In the regular discipline, the forks that the way has come by since it took a character. -/
  forks : List Address := []
  /-- In the backtracking discipline, the pieces whose last repetition began at this place. -/
  begun : List Address := []
deriving DecidableEq, Repr

namespace Path

/-- Whether what follows is the same for two ways. The forks make no difference: a way that comes by
fewer of them goes on where the other one, or one before it, has been already. -/
def meets (p q : Path) : Bool :=
  p.place.offset == q.place.offset && p.begun.isPerm q.begun

/-- Takes one character of a set. -/
def take? (fold : Bool) (s : CharSet) (p : Path) : Option Path :=
  match p.place.rest with
  | c :: rest =>
    if s.contains fold c then
      some { p with place := ⟨p.place.offset + 1, rest⟩, forks := [], begun := [] }
    else none
  | [] => none

/-- Comes by a fork, for the first time since a character was taken. -/
def passFork? (a : Address) (p : Path) : Option Path :=
  if p.forks.contains a then none else some { p with forks := a :: p.forks }

/-- Begins a repetition, for the first time at this place. -/
def begin? (a : Address) (p : Path) : Option Path :=
  if p.begun.contains a then none else some { p with begun := a :: p.begun }

/-- Remembers what was taken since `start` under a name. -/
def capture (name : Text) (start : Place) (p : Path) : Path :=
  let taken := start.rest.take (p.place.offset - start.offset)
  { p with captures := p.captures ++ [(name, taken)] }

/-- Forgets the forks and the repetitions. -/
def untracked (p : Path) : Path := { p with forks := [], begun := [] }

/-- The way with the forks and the repetitions of an earlier place, if it is still there. -/
def resume (p start : Path) : Path :=
  if p.place.offset == start.place.offset then
    { p with forks := start.forks, begun := start.begun }
  else p.untracked

end Path

/-- Adds a less preferred way; it is dropped when it meets one that is there. -/
def add (found : List Path) (p : Path) : List Path :=
  if found.any p.meets then found else found ++ [p]

/-- Adds less preferred ways. -/
def addAll (found more : List Path) : List Path := more.foldl add found

/-- The ways that begin with one of the given and go on as `next` says. -/
def follow (starts : List Path) (next : Path → List Path) : List Path :=
  starts.foldl (fun found p => addAll found (next p)) []

/-- Once more by preference, or not. -/
def prefer (greedy : Bool) (again stop : List Path) : List Path :=
  if greedy then addAll again stop else addAll stop again

/-- At most `n` times a piece, whose copies `body` counts down, each after a fork. -/
def upTo (greedy : Bool) (fork? : Nat → Path → Option Path) (body : Nat → Path → List Path) :
    Nat → Path → List Path
  | 0, p => [p]
  | n + 1, p =>
    match fork? n p with
    | some p => prefer greedy (follow (body n p) (upTo greedy fork? body n)) [p]
    | none => []

/-- Exactly `n` times a piece, whose copies `body` counts down, and then `last`. -/
def times (body : Nat → Path → List Path) (last : Path → List Path) : Nat → Path → List Path
  | 0, p => last p
  | n + 1, p => follow (body n p) (times body last n)

/-- Adds to `found` the ways that repeat a piece any number of times, where `enter?` allows one more
repetition or none. `fuel` bounds the number of repetitions. -/
def loopFrom (greedy : Bool) (enter? : Path → Option Path) (body : Path → List Path) :
    Nat → List Path → Path → List Path
  | 0, found, _ => found
  | fuel + 1, found, p =>
    match enter? p with
    | none => found
    | some p =>
      if found.any p.meets then found
      else
        let again (found : List Path) : List Path :=
          (body p).foldl (loopFrom greedy enter? body fuel) found
        if greedy then add (again found) p else again (add found p)

/-- Any number of times a piece. It is entered at most twice at one place. -/
def loop (greedy : Bool) (enter? : Path → Option Path) (body : Path → List Path) (p : Path) :
    List Path :=
  loopFrom greedy enter? body (p.place.rest.length + 2) [] p

/-- At least `low` times a piece, in the regular discipline. The last copy is the one that is
repeated. A piece that may match nothing is taken at least once or left out at a fork of its own. -/
def atLeastRegular (greedy : Bool) (a : Address) (nullable : Bool)
    (body : Nat → Path → List Path) : Nat → Path → List Path
  | 0, p =>
    let any := loop greedy (Path.passFork? a) (body 0)
    if nullable then upTo greedy (fun _ => Path.passFork? (0 :: a)) (fun _ => times body any 1) 1 p
    else any p
  | low, p => times body (loop greedy (Path.passFork? a) (body 0)) low p

/-- At least `low` times a piece, in the backtracking discipline. Where the last repetition began
is known from an earlier time too, but for the first repetition it does not count. -/
def atLeastBacktracking (greedy : Bool) (a : Address) (nullable : Bool)
    (body : Path → List Path) (low : Nat) (p : Path) : List Path :=
  let any := loop greedy (if nullable then Path.begin? a else some) body
  let again (_ : Nat) (p : Path) : List Path := if p.begun.contains a then [] else body p
  match low with
  | 0 => any { p with begun := p.begun.filter (· != a) }
  | low + 1 => follow (body p) (times again any low)

/-- The ways through a regex at the address `a`, in order of preference. `inLoop` says that it stands
in a repetition of something that may match nothing: only there a way can go round. -/
def ways (d : Discipline) (inLoop : Bool) (a : Address) : Regex → Path → List Path
  | .empty, p => [p]
  | .chars fold s, p => (p.take? fold s).toList
  | .atStart, p => if p.place.offset == 0 then [p] else []
  | .atEnd, p => if p.place.rest.isEmpty then [p] else []
  | .seq r s, p => follow (ways d inLoop (0 :: a) r p) (ways d inLoop (1 :: a) s)
  | .alt r s, p =>
    match if inLoop && d == .regular then p.passFork? a else some p with
    | some p => addAll (ways d inLoop (0 :: a) r p) (ways d inLoop (1 :: a) s p)
    | none => []
  | .repeated greedy low high r, p =>
    let body (copy : Nat) : Path → List Path := ways d (inLoop || r.nullable) ((copy + 1) :: a) r
    let found : List Path := match d, high with
      | .regular, none => atLeastRegular greedy a r.nullable body low p
      | .regular, some high =>
        let rest := high - low
        let fork? (copy : Nat) (p : Path) : Option Path :=
          if inLoop then p.passFork? (copy :: 0 :: a) else some p
        times (fun copy => body (rest + copy)) (upTo greedy fork? body rest) low p
      | .backtracking, none => atLeastBacktracking greedy a r.nullable (body 0) low p
      | .backtracking, some high =>
        times (fun _ => body 0) (upTo greedy (fun _ => some) (fun _ => body 0) (high - low)) low p
    if inLoop then found else addAll [] (found.map Path.untracked)
  | .capture name r, p => (ways d inLoop (0 :: a) r p).map (Path.capture name p.place)
  | .ahead wanted r, p =>
    match (ways (if r.isRegular then .regular else d) false [] r p.untracked).head? with
    | some q => if wanted then [{ p with captures := q.captures }] else []
    | none => if wanted then [] else [p]
  | .atomic r, p =>
    let first := if r.isRegular
      then (ways .regular false [] r p.untracked).head?.map fun q => q.resume p
      else (ways d inLoop (0 :: a) r p).head?
    first.toList

/-- The ways that a regex matches from a place on, in order of preference. -/
def outcomes (r : Regex) (p : Place) : List Outcome :=
  let d := if r.isRegular then .regular else .backtracking
  (ways d false [] r { place := p }).map Path.toOutcome

/-- The first outcome that starts at the place or at one after it. -/
def searchFrom (r : Regex) (offset : Nat) : Text → Option Outcome
  | [] => (r.outcomes ⟨offset, []⟩).head?
  | c :: rest =>
    match r.outcomes ⟨offset, c :: rest⟩ with
    | o :: _ => some o
    | [] => searchFrom r (offset + 1) rest

/-- The leftmost match in a text, of those that start there the most preferred. -/
def search (r : Regex) (t : Text) : Option Outcome := r.searchFrom 0 t

/-- Whether the regex matches somewhere in the text. -/
def isMatch (r : Regex) (t : Text) : Bool := (r.search t).isSome

end StepMatch.Regex
