import StepMatch.Proofs.Regex.Spans
import StepMatch.Regex.Writing
import StepMatch.Regex.Reading

/-!
# What a piece of regex text means

Reading a text goes on from whatever has been read before. `Writes d t L` says that a text always
adds the same to it: pieces of the innermost group that together match the words of `L`. Texts with
this property can be put together, and so can their languages: one after the other, in groups, as
alternatives, with a quantifier. Neither dialect is preferred.
-/

namespace StepMatch.Regex

/-- The state once a pending quantifier is complete. -/
def State.settled (d : Dialect) (s : State) : State :=
  match s.mode with
  | .quantified greedy low high r => s.pushRepeated d (.repeated greedy low high r)
  | _ => s

/-- The state with further pieces in the innermost group, last one first. -/
def State.adding (s : State) (items : List Item) (target : Target) (names : List Text) : State :=
  { s with
    inner := { s.inner with items := items ++ s.inner.items, target := target }, names := names }

/-- Wherever it is read, the text adds pieces with a property to the innermost group. The pieces are
given last one first. -/
def Adds (d : Dialect) (t : Text) (P : List Item → Prop) : Prop :=
  ∀ s : State, s.mode = .plain → s.inner.fold = false → ∃ s' items target names,
    t.foldlM (State.step d) s = some s' ∧ s'.settled d = s.adding items target names ∧ P items

/-- Pieces, last one first, that together match the words of a language. They take nothing into
account but what they match, and name nothing. If they are `firm`, a quantifier may follow any. -/
structure Stretch (firm : Bool) (items : List Item) (L : TextLanguage) : Prop where
  isLocal : ∀ i ∈ items, i.regex.isLocal
  unnamed : ∀ i ∈ items, i.regex.groupNames = []
  language : (items.reverse.map fun i => i.regex.language).prod = L
  firm : firm = true → items ≠ [] ∧ ∀ i ∈ items, i.repeatable

/-- Wherever it is read, the text adds pieces that together match the words of the language. -/
def Writes (firm : Bool) (d : Dialect) (t : Text) (L : TextLanguage) : Prop :=
  ∀ s : State, s.mode = .plain → s.inner.fold = false → ∃ s' items target names,
    t.foldlM (State.step d) s = some s' ∧ s'.settled d = s.adding items target names ∧
      Stretch firm items L

variable {firm : Bool} {d : Dialect} {s s' : State} {t u : Text} {L M : TextLanguage} {c : Char}
  {items more : List Item} {P Q : List Item → Prop}

@[simp] theorem State.adding_mode (s : State) (items : List Item) (target : Target)
    (names : List Text) : (s.adding items target names).mode = s.mode := rfl

@[simp] theorem State.adding_fold (s : State) (items : List Item) (target : Target)
    (names : List Text) : (s.adding items target names).inner.fold = s.inner.fold := rfl

theorem State.settled_of_plain (h : s.mode = .plain) : s.settled d = s := by
  rw [State.settled, h]

/-- Any character but those that change a quantifier completes it. -/
theorem State.step_settled (question : c ≠ '?') (plus : c ≠ '+') :
    State.step d s c = State.step d (s.settled d) c := by
  obtain ⟨mode, inner, outer, names⟩ := s
  cases mode with
  | quantified greedy low high r =>
    simp only [State.step, State.settled, State.readQuantified, State.pushRepeated,
      State.continueWith, beq_iff_eq, question, plus, Bool.and_eq_true, false_and, if_false]
  | _ => rfl

theorem State.finish_settled (d : Dialect) (s : State) :
    State.finish d s = State.finish d (s.settled d) := by
  obtain ⟨mode, inner, outer, names⟩ := s
  cases mode <;> rfl

/-- Reading a text and then another one. -/
theorem State.foldlM_append (run : t.foldlM (State.step d) s = some s') (u : Text) :
    (t ++ u).foldlM (State.step d) s = u.foldlM (State.step d) s' := by
  rw [List.foldlM_append, run]
  rfl

/-- What can be read at the start does not begin with a quantifier. -/
theorem State.head_of_reads (h : ((c :: t).foldlM (State.step d) .start).isSome) :
    c ≠ '?' ∧ c ≠ '+' := by
  constructor
  · rintro rfl
    cases h
  · rintro rfl
    cases h

/-- Then reading goes on as if a pending quantifier were complete. -/
theorem State.foldlM_settled (h : (t.foldlM (State.step d) .start).isSome) (ne : t ≠ []) :
    t.foldlM (State.step d) s = t.foldlM (State.step d) (s.settled d) := by
  obtain _ | ⟨c, t⟩ := t
  · exact absurd rfl ne
  · obtain ⟨question, plus⟩ := head_of_reads h
    rw [List.foldlM_cons, List.foldlM_cons, State.step_settled question plus]

namespace Stretch

theorem append (h : Stretch firm items L) (h' : Stretch firm more M) :
    Stretch firm (more ++ items) (L * M) where
  isLocal i hi := (List.mem_append.1 hi).elim (h'.isLocal i) (h.isLocal i)
  unnamed i hi := (List.mem_append.1 hi).elim (h'.unnamed i) (h.unnamed i)
  language := by
    rw [List.reverse_append, List.map_append, List.prod_append, h.language, h'.language]
  firm e := ⟨by simp [(h.firm e).1],
    fun i hi => (List.mem_append.1 hi).elim ((h'.firm e).2 i) ((h.firm e).2 i)⟩

theorem single {r : Regex} (loc : r.isLocal) (unnamed : r.groupNames = []) :
    Stretch firm [⟨r, true⟩] r.language where
  isLocal := by simp [loc]
  unnamed := by simp [unnamed]
  language := by simp
  firm _ := by simp

theorem nil : Stretch false [] 1 := ⟨by simp, by simp, by simp, by simp⟩

theorem loosen (h : Stretch firm items L) : Stretch false items L :=
  ⟨h.isLocal, h.unnamed, h.language, fun e => by cases e⟩

end Stretch

namespace Adds

theorem reads (h : Adds d t P) : (t.foldlM (State.step d) .start).isSome := by
  obtain ⟨s', -, -, -, run, -⟩ := h .start rfl rfl
  rw [run]
  rfl

theorem mono (h : Adds d t P) (sub : ∀ items, P items → Q items) : Adds d t Q := fun s plain fold => by
  obtain ⟨s', items, target, names, run, settled, holds⟩ := h s plain fold
  exact ⟨s', items, target, names, run, settled, sub items holds⟩

theorem nil (holds : P []) : Adds d [] P := fun s plain _ =>
  ⟨s, [], s.inner.target, s.names, rfl, State.settled_of_plain plain, holds⟩

/-- One text after the other adds the pieces of both. -/
theorem append (h : Adds d t P) (h' : Adds d u Q) :
    Adds d (t ++ u) fun items => ∃ first later, P first ∧ Q later ∧ items = later ++ first := by
  intro s plain fold
  obtain ⟨s₁, items, target, names, run, settled, holds⟩ := h s plain fold
  have plain₁ : (s₁.settled d).mode = .plain := by rw [settled]; exact plain
  obtain ⟨s₂, more, target', names', run', settled', holds'⟩ := h' (s₁.settled d) plain₁ (by
    rw [settled]; exact fold)
  have together : (s₁.settled d).adding more target' names' =
      s.adding (more ++ items) target' names' := by
    rw [settled]
    simp [State.adding]
  rw [State.foldlM_append run]
  by_cases ne : u = []
  · subst ne
    cases run'
    refine ⟨s₁, more ++ items, target', names', rfl, ?_, items, more, holds, holds', rfl⟩
    rw [State.settled_of_plain plain₁] at settled'
    exact settled'.trans together
  · refine ⟨s₂, more ++ items, target', names', ?_, settled'.trans together, items, more, holds,
      holds', rfl⟩
    exact (State.foldlM_settled h'.reads ne).trans run'

end Adds

namespace Writes

theorem adds (h : Writes firm d t L) : Adds d t (Stretch firm · L) := h

theorem nil : Writes false d [] 1 := Adds.nil .nil

theorem loosen (h : Writes firm d t L) : Writes false d t L := h.adds.mono fun _ => Stretch.loosen

theorem append (h : Writes firm d t L) (h' : Writes firm d u M) : Writes firm d (t ++ u) (L * M) := by
  refine (h.adds.append h'.adds).mono fun items => ?_
  rintro ⟨first, later, stretch, stretch', rfl⟩
  exact stretch.append stretch'

end Writes

/-- A set of characters as a language. -/
def ofSet (s : CharSet) : TextLanguage := {w | ∃ c, s.contains false c ∧ w = [c]}

/-- Reading the text takes one more piece of the innermost group, with a property, and a quantifier
may follow. -/
def AddsAtom (d : Dialect) (t : Text) (Q : Regex → Prop) : Prop :=
  ∀ s : State, s.mode = .plain → s.inner.fold = false → ∃ (r : Regex) (names : List Text),
    t.foldlM (State.step d) s = some (s.adding [⟨r, true⟩] .piece names) ∧ Q r

namespace AddsAtom

variable {A B : Regex → Prop}

theorem adds (h : AddsAtom d t A) : Adds d t fun items => ∃ r, A r ∧ items = [⟨r, true⟩] := by
  intro s plain fold
  obtain ⟨r, names, run, holds⟩ := h s plain fold
  exact ⟨_, [⟨r, true⟩], .piece, names, run, State.settled_of_plain plain, r, holds, rfl⟩

theorem mono (h : AddsAtom d t A) (sub : ∀ r, A r → B r) : AddsAtom d t B := fun s plain fold => by
  obtain ⟨r, names, run, holds⟩ := h s plain fold
  exact ⟨r, names, run, sub r holds⟩

/-- A quantifier applies to the piece in front of it. -/
theorem quantifiedBy (h : AddsAtom d t A) {q : Text} {low : Nat} {high : Option Nat}
    (reads : ∀ s : State, s.mode = .plain → s.inner.target = .piece →
      q.foldlM (State.step d) s = s.quantify low high) :
    Adds d (t ++ q) fun items => ∃ r, A r ∧ items = [⟨.repeated true low high r, true⟩] := by
  intro s plain fold
  obtain ⟨r, names, run, holds⟩ := h s plain fold
  refine ⟨{ s with
      mode := .quantified true low high r, inner := { s.inner with target := .nothing },
      names := names },
    [⟨.repeated true low high r, true⟩], if d == .plain then .piece else .nothing, names,
    ?_, ?_, r, holds, rfl⟩
  · rw [List.foldlM_append, run]
    exact (reads (s.adding [⟨r, true⟩] .piece names) plain rfl).trans rfl
  · obtain ⟨mode, inner, outer, before⟩ := s
    cases plain
    rfl

/-- A quantifier of a single character. -/
theorem quantified (h : AddsAtom d t A) {q : Char} {low : Nat} {high : Option Nat}
    (reads : ∀ s : State, s.mode = .plain → State.step d s q = s.quantify low high) :
    Adds d (t ++ [q]) fun items => ∃ r, A r ∧ items = [⟨.repeated true low high r, true⟩] :=
  h.quantifiedBy fun s plain _ => by rw [List.foldlM_cons, reads s plain]; exact bind_pure _

/-- One character of a set. -/
theorem ofState {set : CharSet}
    (reads : ∀ s : State, s.mode = .plain → t.foldlM (State.step d) s = some (s.pushSet set)) :
    AddsAtom d t (· = .chars false set) := by
  intro s plain fold
  refine ⟨.chars false set, s.names, ?_, rfl⟩
  rw [reads s plain]
  obtain ⟨mode, inner, outer, names⟩ := s
  cases plain
  simp only at fold
  simp [State.pushSet, State.continueWith, Scope.push, State.adding, fold]

end AddsAtom

/-- Reading the text takes one more piece, for the words of a language, and a quantifier may
follow. -/
def WritesAtom (d : Dialect) (t : Text) (L : TextLanguage) : Prop :=
  AddsAtom d t fun r => r.isLocal ∧ r.groupNames = [] ∧ r.language = L

namespace WritesAtom

theorem adds (h : WritesAtom d t L) :
    AddsAtom d t fun r => r.isLocal ∧ r.groupNames = [] ∧ r.language = L := h

theorem writes (h : WritesAtom d t L) : Writes firm d t L := by
  refine h.adds.adds.mono fun items => ?_
  rintro ⟨r, ⟨loc, unnamed, rfl⟩, rfl⟩
  exact .single loc unnamed

/-- A quantifier applies to the piece in front of it. -/
theorem quantifiedBy (h : WritesAtom d t L) {q : Text} {low : Nat} {high : Option Nat}
    (reads : ∀ s : State, s.mode = .plain → s.inner.target = .piece →
      q.foldlM (State.step d) s = s.quantify low high) :
    Writes firm d (t ++ q) (repeats low high L) := by
  refine (h.adds.quantifiedBy reads).mono fun items => ?_
  rintro ⟨r, ⟨loc, unnamed, rfl⟩, rfl⟩
  exact .single (r := .repeated true low high r) loc unnamed

/-- A quantifier of a single character. -/
theorem quantified (h : WritesAtom d t L) {q : Char} {low : Nat} {high : Option Nat}
    (reads : ∀ s : State, s.mode = .plain → State.step d s q = s.quantify low high) :
    Writes firm d (t ++ [q]) (repeats low high L) :=
  h.quantifiedBy fun s plain _ => by rw [List.foldlM_cons, reads s plain]; exact bind_pure _

/-- One character of a set. -/
theorem ofSet {set : CharSet} (h : AddsAtom d t (· = .chars false set)) :
    WritesAtom d t (ofSet set) := by
  refine h.mono fun r => ?_
  rintro rfl
  exact ⟨rfl, rfl, rfl⟩

end WritesAtom

end StepMatch.Regex
