import StepMatch.Proofs.Regex.Literals

/-!
# Groups and alternatives

What stands between the brackets of a group: alternatives with bars between them. A group of any
kind makes one piece of it. Without a name that piece is again a text with a language of its own,
one that a quantifier may follow.
-/

namespace StepMatch.Regex

variable {firm : Bool} {d : Dialect} {s : State} {t u : Text} {L M : TextLanguage}
  {items : List Item} {as : List Regex} {rs : List Regex}

theorem language_concat (rs : List Regex) : (concat rs).language = (rs.map language).prod := by
  obtain _ | ⟨r, rs⟩ := rs
  · rfl
  · rw [concat, List.map_cons, List.prod_cons]
    induction rs generalizing r with
    | nil => simp
    | cons s rs ih =>
      rw [List.foldl_cons, ih, List.map_cons, List.prod_cons, language, mul_assoc]

theorem language_anyOf : ∀ {rs : List Regex}, rs ≠ [] → (anyOf rs).language = (rs.map language).sum
  | [r], _ => by simp [anyOf]
  | r :: s :: rs, _ => by
    rw [anyOf, language, language_anyOf (List.cons_ne_nil s rs), ← List.sum_cons, ← List.map_cons]
    exact List.cons_ne_nil s rs

theorem isLocal_concat (h : ∀ r ∈ rs, r.isLocal) : (concat rs).isLocal := by
  obtain _ | ⟨r, rs⟩ := rs
  · rfl
  · rw [concat]
    induction rs generalizing r with
    | nil => simpa using h
    | cons s rs ih =>
      refine ih (.seq r s) fun q hq => ?_
      simp only [List.mem_cons, forall_eq_or_imp] at h hq
      obtain rfl | hq := hq
      · exact Bool.and_eq_true_iff.2 ⟨h.1, h.2.1⟩
      · exact h.2.2 q hq

theorem isLocal_anyOf : ∀ {rs : List Regex}, (∀ r ∈ rs, r.isLocal) → (anyOf rs).isLocal
  | [], _ => rfl
  | [r], h => h r List.mem_cons_self
  | r :: _ :: _, h =>
    Bool.and_eq_true_iff.2 ⟨h r List.mem_cons_self,
      isLocal_anyOf fun q hq => h q (List.mem_cons_of_mem _ hq)⟩

theorem groupNames_concat (rs : List Regex) : (concat rs).groupNames = rs.flatMap groupNames := by
  obtain _ | ⟨r, rs⟩ := rs
  · rfl
  · rw [concat, List.flatMap_cons]
    induction rs generalizing r with
    | nil => simp
    | cons s rs ih =>
      rw [List.foldl_cons, ih, List.flatMap_cons, groupNames, List.append_assoc]

theorem groupNames_anyOf : ∀ rs : List Regex, (anyOf rs).groupNames = rs.flatMap groupNames
  | [] => rfl
  | [r] => by simp [anyOf]
  | r :: s :: rs => by
    rw [anyOf, groupNames, groupNames_anyOf (s :: rs), ← List.flatMap_cons]
    exact List.cons_ne_nil s rs

/-- The last alternative of a scope, from its pieces. -/
theorem Stretch.lastAlternative (h : Stretch firm items L) {g : Scope} (pieces : g.items = items) :
    g.lastAlternative.isLocal ∧ g.lastAlternative.groupNames = [] ∧
      g.lastAlternative.language = L := by
  rw [Scope.lastAlternative, pieces]
  refine ⟨isLocal_concat fun r hr => ?_, ?_, ?_⟩
  · obtain ⟨i, hi, rfl⟩ := List.mem_map.1 hr
    exact h.isLocal i (List.mem_reverse.1 hi)
  · rw [groupNames_concat, List.flatMap_eq_nil_iff]
    intro r hr
    obtain ⟨i, hi, rfl⟩ := List.mem_map.1 hr
    exact h.unnamed i (List.mem_reverse.1 hi)
  · rw [language_concat, List.map_map]
    exact h.language

/-- The alternatives of a group and the pieces of its last one, all of them last one first, that
match the words of a language between them. If they are `firm`, they make a piece in any dialect. -/
structure Body (firm : Bool) (as : List Regex) (items : List Item) (L : TextLanguage) : Prop where
  isLocal : ∀ a ∈ as, a.isLocal
  unnamed : ∀ a ∈ as, a.groupNames = []
  last : ∃ M, Stretch false items M ∧ L = (as.map language).sum + M
  firm : firm = true → as = [] → items ≠ [] ∧ ∀ i ∈ items, i.repeatable

/-- Alternatives behind other ones. -/
theorem Body.bar {front behind : List Regex} {before : List Item} (h : Body false front before L)
    (h' : Body false behind items M) :
    Body firm (behind ++ concat (before.reverse.map Item.regex) :: front) items (L + M) := by
  obtain ⟨K, stretch, rfl⟩ := h.last
  obtain ⟨K', stretch', rfl⟩ := h'.last
  obtain ⟨loc, unnamed, language⟩ :=
    stretch.lastAlternative (g := ⟨.plain, false, [], before, .nothing⟩) rfl
  refine ⟨?_, ?_, ⟨K', stretch', ?_⟩, by simp⟩
  · simp only [List.mem_append, List.mem_cons]
    rintro a (ha | rfl | ha)
    · exact h'.isLocal a ha
    · exact loc
    · exact h.isLocal a ha
  · simp only [List.mem_append, List.mem_cons]
    rintro a (ha | rfl | ha)
    · exact h'.unnamed a ha
    · exact unnamed
    · exact h.unnamed a ha
  · have own : (concat (before.reverse.map Item.regex)).language = K := language
    rw [List.map_append, List.map_cons, List.sum_append, List.sum_cons, own]
    ac_rfl

/-- What a scope with these alternatives and pieces stands for. -/
theorem Body.scope (h : Body firm as items L) {g : Scope} (alternatives : g.alternatives = as)
    (pieces : g.items = items) :
    g.body.isLocal ∧ g.body.groupNames = [] ∧ g.body.language = L := by
  obtain ⟨M, stretch, rfl⟩ := h.last
  obtain ⟨loc, unnamed, language⟩ := stretch.lastAlternative pieces
  have mem : ∀ {r}, r ∈ (g.lastAlternative :: g.alternatives).reverse →
      r = g.lastAlternative ∨ r ∈ as := fun hr => by
    rwa [List.mem_reverse, List.mem_cons, alternatives] at hr
  refine ⟨isLocal_anyOf fun r hr => ?_, ?_, ?_⟩
  · obtain rfl | hr := mem hr
    · exact loc
    · exact h.isLocal r hr
  · rw [Scope.body, groupNames_anyOf, List.flatMap_eq_nil_iff]
    intro r hr
    obtain rfl | hr := mem hr
    · exact unnamed
    · exact h.unnamed r hr
  · rw [Scope.body, language_anyOf (by simp), List.map_reverse, List.sum_reverse, List.map_cons,
      List.sum_cons, language, alternatives, add_comm]

/-- What alternatives and the pieces of a last one stand for, all of them last one first. -/
def bodyOf (as : List Regex) (items : List Item) : Regex :=
  anyOf (concat (items.reverse.map Item.regex) :: as).reverse

/-- Read at the start of an alternative, the text adds alternatives and pieces with a property. -/
def AddsBody (d : Dialect) (t : Text) (Q : List Regex → List Item → Prop) : Prop :=
  ∀ s : State, s.mode = .plain → s.inner.fold = false → s.inner.items = [] →
    ∃ s' as items target names, t.foldlM (State.step d) s = some s' ∧
      s'.settled d = { s with
        inner := ⟨s.inner.kind, false, as ++ s.inner.alternatives, items, target⟩,
        names := names } ∧
      Q as items

/-- Read at the start of an alternative, the text adds alternatives and pieces that match the words
of the language between them. -/
def WritesBody (firm : Bool) (d : Dialect) (t : Text) (L : TextLanguage) : Prop :=
  ∀ s : State, s.mode = .plain → s.inner.fold = false → s.inner.items = [] →
    ∃ s' as items target names, t.foldlM (State.step d) s = some s' ∧
      s'.settled d = { s with
        inner := ⟨s.inner.kind, false, as ++ s.inner.alternatives, items, target⟩,
        names := names } ∧
      Body firm as items L

theorem Adds.body {P : List Item → Prop} (h : Adds d t P) :
    AddsBody d t fun as items => as = [] ∧ P items := by
  intro s plain fold none
  obtain ⟨s', items, target, names, run, settled, holds⟩ := h s plain fold
  refine ⟨s', [], items, target, names, run, ?_, rfl, holds⟩
  rw [settled, State.adding, none, List.append_nil, List.nil_append]
  obtain ⟨mode, ⟨kind, _, alternatives, _, _⟩, outer, _⟩ := s
  cases fold
  rfl

namespace AddsBody

variable {P Q : List Regex → List Item → Prop}

theorem reads (h : AddsBody d t Q) : (t.foldlM (State.step d) .start).isSome := by
  obtain ⟨s', -, -, -, -, run, -⟩ := h .start rfl rfl rfl
  rw [run]
  rfl

theorem mono (h : AddsBody d t P) (sub : ∀ as items, P as items → Q as items) :
    AddsBody d t Q := fun s plain fold none => by
  obtain ⟨s', as, items, target, names, run, settled, holds⟩ := h s plain fold none
  exact ⟨s', as, items, target, names, run, settled, sub as items holds⟩

/-- Alternatives with a bar between them. -/
theorem bar (h : AddsBody d t P) (h' : AddsBody d u Q) :
    AddsBody d (t ++ '|' :: u) fun as items => ∃ front before behind, P front before ∧
      Q behind items ∧ as = behind ++ concat (before.reverse.map Item.regex) :: front := by
  intro s plain fold none
  obtain ⟨s₁, as, items, target, names, run, settled, holds⟩ := h s plain fold none
  let g : Scope := ⟨s.inner.kind, false, as ++ s.inner.alternatives, items, target⟩
  let next : State := { s with inner := g.nextAlternative, names := names }
  obtain ⟨s₂, as', items', target', names', run', settled', holds'⟩ := h' next plain rfl rfl
  refine ⟨s₂, as' ++ g.lastAlternative :: as, items', target', names', ?_, ?_,
    as, items, as', holds, holds', rfl⟩
  · rw [State.foldlM_append run, List.foldlM_cons, State.step_settled (by decide) (by decide), settled]
    obtain ⟨mode, inner, outer, _⟩ := s
    cases plain
    exact run'
  · rw [settled', List.append_assoc, List.cons_append]
    rfl

end AddsBody

theorem WritesBody.addsBody (h : WritesBody firm d t L) : AddsBody d t (Body firm · · L) := h

theorem Writes.body (h : Writes firm d t L) : WritesBody firm d t L := by
  refine h.adds.body.mono fun as items => ?_
  rintro ⟨rfl, stretch⟩
  exact ⟨by simp, by simp, ⟨L, stretch.loosen, by simp⟩, fun e _ => stretch.firm e⟩

namespace WritesBody

/-- Alternatives with a bar between them. -/
theorem bar (h : WritesBody false d t L) (h' : WritesBody false d u M) :
    WritesBody firm d (t ++ '|' :: u) (L + M) := by
  refine (h.addsBody.bar h'.addsBody).mono fun as items => ?_
  rintro ⟨front, before, behind, body, body', rfl⟩
  exact body.bar body'

end WritesBody

/-- Reading goes on in a group that has been opened as in any scope. -/
theorem foldlM_opened {t : Text} (ne : t ≠ []) (question : t.head? ≠ some '?')
    (opened : s.mode = .opened) :
    t.foldlM (State.step d) s = t.foldlM (State.step d) (s.openGroup .unnamed s.inner.fold) := by
  obtain _ | ⟨c, t⟩ := t
  · exact absurd rfl ne
  · obtain ⟨mode, inner, outer, names⟩ := s
    cases opened
    have : c ≠ '?' := fun e => question (congrArg some e)
    simp only [List.foldlM_cons, State.step, beq_iff_eq, this, if_false]
    rfl

/-- A scope that has just been opened, read up to the bracket that closes it. -/
theorem foldlM_close {s' : State} {kind : GroupKind} {g : Scope} {names after : List Text}
    (plain : s.mode = .plain)
    (run : t.foldlM (State.step d)
      ⟨.plain, { kind := kind, fold := false }, s.inner :: s.outer, names⟩ = some s')
    (settled : s'.settled d = ⟨.plain, g, s.inner :: s.outer, after⟩) :
    (t ++ [')']).foldlM (State.step d)
        ⟨.plain, { kind := kind, fold := false }, s.inner :: s.outer, names⟩ =
      some { s with inner := s.inner.pushGroup d g, names := after } := by
  rw [State.foldlM_append run, List.foldlM_cons, State.step_settled (by decide) (by decide), settled]
  obtain ⟨mode, inner, outer, _⟩ := s
  cases plain
  rfl

/-- What can be read at the start can be read between brackets. -/
theorem foldlM_group (reads : (t.foldlM (State.step d) .start).isSome) (plain : s.mode = .plain)
    (fold : s.inner.fold = false) :
    ('(' :: t ++ [')']).foldlM (State.step d) s = (t ++ [')']).foldlM (State.step d)
      ⟨.plain, { kind := .unnamed, fold := false }, s.inner :: s.outer, s.names⟩ := by
  have question : (t ++ [')']).head? ≠ some '?' := by
    obtain _ | ⟨c, t⟩ := t
    · decide
    · exact fun e => (State.head_of_reads reads).1 (Option.some.inj e)
  have opened : ('(' :: t ++ [')']).foldlM (State.step d) s =
      (t ++ [')']).foldlM (State.step d) { s with mode := .opened } := by
    obtain ⟨mode, inner, outer, names⟩ := s
    cases plain
    rfl
  rw [opened, foldlM_opened (by simp) question rfl]
  obtain ⟨mode, inner, outer, names⟩ := s
  simp only at fold
  simp only [State.openGroup, fold]

namespace Adds

variable {P : List Item → Prop}

/-- A group without a name makes one piece of what is read in it. -/
theorem group (h : Adds d t P) : Adds d ('(' :: t ++ [')']) fun items =>
    ∃ inner, P inner ∧ items = [⟨concat (inner.reverse.map Item.regex), true⟩] := by
  intro s plain fold
  obtain ⟨s', items, target, names, run, settled, holds⟩ :=
    h ⟨.plain, { kind := .unnamed, fold := false }, s.inner :: s.outer, s.names⟩ rfl rfl
  refine ⟨_, [⟨concat (items.reverse.map Item.regex), true⟩], .piece, names, ?_,
    State.settled_of_plain plain, items, holds, rfl⟩
  rw [foldlM_group h.reads plain fold, foldlM_close plain run settled]
  obtain _ | ⟨i, _ | ⟨j, items⟩⟩ := items <;> cases d <;> simp [State.adding, Scope.pushGroup, Scope.push, Scope.body, Scope.lastAlternative, GroupKind.close, anyOf]

/-- A group that looks ahead for what its text could not match. -/
theorem refusal (h : Adds .extended t P) :
    Adds .extended ('(' :: '?' :: '!' :: t ++ [')']) fun items => ∃ inner, P inner ∧
      items = [⟨.ahead false (concat (inner.reverse.map Item.regex)), false⟩] := by
  intro s plain fold
  obtain ⟨s', items, target, names, run, settled, holds⟩ :=
    h ⟨.plain, { kind := .ahead false, fold := false }, s.inner :: s.outer, s.names⟩ rfl rfl
  refine ⟨_, [⟨.ahead false (concat (items.reverse.map Item.regex)), false⟩], .fixed, names, ?_,
    State.settled_of_plain plain, items, holds, rfl⟩
  have opened : ('(' :: '?' :: '!' :: t ++ [')']).foldlM (State.step .extended) s =
      (t ++ [')']).foldlM (State.step .extended)
        ⟨.plain, { kind := .ahead false, fold := s.inner.fold }, s.inner :: s.outer, s.names⟩ := by
    obtain ⟨mode, inner, outer, names⟩ := s
    cases plain
    rfl
  rw [opened, fold, foldlM_close plain run settled]
  obtain _ | ⟨i, _ | ⟨j, items⟩⟩ := items <;> simp [State.adding, Scope.pushGroup, Scope.push, Scope.body, Scope.lastAlternative, anyOf]

end Adds

/-- Read in a group that has just been opened, the text makes alternatives and pieces with a property of
it, up to the bracket that closes it. -/
def Closes (d : Dialect) (t : Text) (Q : List Regex → List Item → Prop) : Prop :=
  ∀ (s : State) (kind : GroupKind) (names : List Text), s.mode = .plain →
    ∃ (g : Scope) (after : List Text), g.kind = kind ∧ Q g.alternatives g.items ∧
      (t ++ [')']).foldlM (State.step d)
          ⟨.plain, { kind := kind, fold := false }, s.inner :: s.outer, names⟩ =
        some { s with inner := s.inner.pushGroup d g, names := after }

section Brackets

variable {Q : List Regex → List Item → Prop}

theorem AddsBody.closes (h : AddsBody d t Q) : Closes d t Q := by
  intro s kind names plain
  obtain ⟨s', as, items, target, after, run, settled, holds⟩ :=
    h ⟨.plain, { kind := kind, fold := false }, s.inner :: s.outer, names⟩ rfl rfl rfl
  refine ⟨⟨kind, false, as, items, target⟩, after, rfl, holds, foldlM_close plain run ?_⟩
  rw [settled, List.append_nil]

/-- A group without a name makes one piece. -/
theorem AddsBody.group (h : AddsBody d t Q) :
    AddsAtom d ('(' :: t ++ [')']) fun r => ∃ as items, Q as items ∧ r = bodyOf as items := by
  intro s plain fold
  obtain ⟨⟨_, fold', as, items, target⟩, after, rfl, holds, run⟩ := h.closes s .unnamed s.names plain
  refine ⟨bodyOf as items, after, ?_, as, items, holds, rfl⟩
  rw [foldlM_group h.reads plain fold, run]
  obtain ⟨mode, inner, outer, names⟩ := s
  simp only at fold plain
  subst plain
  obtain _ | ⟨a, as⟩ := as <;> obtain _ | ⟨i, _ | ⟨j, items⟩⟩ := items <;> cases d <;> rfl

/-- Reading goes on in a plain group as in any other one. -/
theorem foldlM_grouped (plain : s.mode = .plain) (fold : s.inner.fold = false) (t : Text) :
    (Regex.grouped t).foldlM (State.step d) s = (t ++ [')']).foldlM (State.step d)
      ⟨.plain, { kind := .plain, fold := false }, s.inner :: s.outer, s.names⟩ := by
  obtain ⟨mode, inner, outer, names⟩ := s
  simp only at fold plain
  subst plain
  rw [← fold]
  cases d <;> rfl

/-- Brackets that only keep pieces together make one piece too, unless there is nothing in them or a
single piece that no quantifier may follow. -/
theorem Closes.grouped (h : Closes d t Q)
    (firm : ∀ items, Q [] items → items ≠ [] ∧ ∀ i, items = [i] → i.repeatable = true) :
    AddsAtom d (Regex.grouped t) fun r => ∃ as items, Q as items ∧ r = bodyOf as items := by
  intro s plain fold
  obtain ⟨⟨_, fold', as, items, target⟩, after, rfl, holds, run⟩ := h s .plain s.names plain
  refine ⟨bodyOf as items, after, ?_, as, items, holds, rfl⟩
  rw [foldlM_grouped plain fold, run]
  obtain _ | ⟨a, as⟩ := as
  · obtain ⟨ne, repeatable⟩ := firm items holds
    obtain _ | ⟨i, _ | ⟨j, items⟩⟩ := items
    · exact absurd rfl ne
    · have again := repeatable i rfl
      obtain ⟨r, _⟩ := i
      cases again
      cases d <;> rfl
    · cases d <;> rfl
  · cases d <;> rfl

end Brackets

/-- What alternatives and the pieces of a last one stand for, if these are the parts of a body. -/
theorem Body.bodyOf (h : Body firm as items L) :
    (bodyOf as items).isLocal ∧ (Regex.bodyOf as items).groupNames = [] ∧
      (Regex.bodyOf as items).language = L :=
  h.scope (g := ⟨.plain, false, as, items, .nothing⟩) rfl rfl

namespace WritesBody

/-- A group without a name makes one piece. -/
theorem group (h : WritesBody false d t L) : WritesAtom d ('(' :: t ++ [')']) L := by
  refine h.addsBody.group.mono fun r => ?_
  rintro ⟨as, items, body, rfl⟩
  exact body.bodyOf

/-- Brackets that only keep pieces together. -/
theorem grouped (h : WritesBody true d t L) : WritesAtom d (Regex.grouped t) L := by
  refine (h.addsBody.closes.grouped fun items body => ?_).mono fun r => ?_
  · obtain ⟨ne, repeatable⟩ := body.firm rfl rfl
    refine ⟨ne, ?_⟩
    rintro i rfl
    exact repeatable i List.mem_cons_self
  · rintro ⟨as, items, body, rfl⟩
    exact body.bodyOf

end WritesBody

end StepMatch.Regex
