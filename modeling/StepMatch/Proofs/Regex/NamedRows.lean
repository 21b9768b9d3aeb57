import StepMatch.Proofs.Regex.Embedding

/-!
# Rows of named groups

In either dialect a row of groups with different names lays out one field for each. The plain dialect
refuses a name that is in use, so what a text adds has to be known only where its own names are new. After
it, the names in use are those from before and its own: so texts with different names can stand in a row.
-/

namespace StepMatch.Regex

variable {d : Dialect} {s s' : State} {t u : Text} {fs gs : List Field} {names : List Text}

/-- None of the names is in use, or belongs to a group. -/
def State.IsNewTo (s : State) (names : List Text) : Prop := ∀ n ∈ names, n ∉ s.names ∧ n ∉ s.groupNames

/-- Wherever its names are new, the text adds pieces that make the row of fields. -/
def LaysNew (d : Dialect) (t : Text) (fs : List Field) : Prop :=
  ∀ s : State, s.mode = .plain → s.inner.fold = false → s.IsNewTo (fs.filterMap Field.name) →
    ∃ s' items target names, t.foldlM (State.step d) s = some s' ∧
      s'.settled d = s.adding items target names ∧ Layout items fs

namespace State

theorem isNewTo_start (names : List Text) : start.IsNewTo names := fun n _ => by
  simp [start, groupNames, Mode.groupNames, Scope.groupNames, GroupKind.names]

theorem isNewTo_anchored (names : List Text) : (anchored d).IsNewTo names := fun n _ => by
  simp [anchored, start, groupNames, Mode.groupNames, Scope.groupNames, GroupKind.names, Scope.push,
    Regex.groupNames]

theorem Grows.settled (d : Dialect) (s : State) : Grows s (s.settled d) := by
  rw [State.settled]
  split
  · rename_i greedy low high r own
    exact .pushRepeated fun n hn => by rwa [own] at hn
  · exact .refl s

theorem mem_groupNames_adding {n : Text} {items : List Item} {target : Target}
    (plain : s.mode = .plain) (h : n ∈ (s.adding items target names).groupNames) :
    n ∈ s.groupNames ∨ n ∈ items.reverse.flatMap fun i => i.regex.groupNames := by
  simp only [mem_groupNames_iff, adding, plain, Mode.groupNames, List.not_mem_nil, false_or,
    Scope.mem_groupNames_iff, List.mem_append, List.mem_flatMap, List.mem_reverse] at h ⊢
  obtain (own | ⟨i, hi | hi, mem⟩ | alternative) | around := h
  · exact .inl (.inl (.inl own))
  · exact .inr ⟨i, hi, mem⟩
  · exact .inl (.inl (.inr (.inl ⟨i, hi, mem⟩)))
  · exact .inl (.inl (.inr (.inr alternative)))
  · exact .inl (.inr around)

/-- Names that are new before a row, and differ from the names in it, are new after it. -/
theorem IsNewTo.after (new : s.IsNewTo names) (plain : s.mode = .plain)
    (run : t.foldlM (State.step d) s = some s') {items : List Item} {target : Target} {after : List Text}
    (settled : s'.settled d = s.adding items target after) (layout : Layout items fs)
    (apart : ∀ n ∈ names, n ∉ fs.filterMap Field.name) : (s'.settled d).IsNewTo names := by
  intro n hn
  have grown : Grows s (s'.settled d) := (Grows.run run).trans (.settled d s')
  have foreign : n ∉ (s'.settled d).groupNames := fun h => by
    rw [settled] at h
    obtain before | own := mem_groupNames_adding plain h
    · exact (new n hn).2 before
    · exact apart n hn (layout.names ▸ own)
  exact ⟨fun h => (grown.new n h).elim (new n hn).1 foreign, foreign⟩

end State

theorem Lays.new (h : Lays d t fs) : LaysNew d t fs := fun s plain fold _ => h s plain fold

namespace LaysNew

theorem reads (h : LaysNew d t fs) : (t.foldlM (State.step d) .start).isSome := by
  obtain ⟨s', -, -, -, run, -⟩ := h .start rfl rfl (State.isNewTo_start _)
  rw [run]
  rfl

/-- Rows without a common name, one after the other. -/
theorem append (h : LaysNew d t fs) (h' : LaysNew d u gs)
    (apart : ∀ n ∈ gs.filterMap Field.name, n ∉ fs.filterMap Field.name) :
    LaysNew d (t ++ u) (fs ++ gs) := by
  intro s plain fold new
  rw [List.filterMap_append] at new
  obtain ⟨s₁, items, target, names, run, settled, layout⟩ :=
    h s plain fold fun n hn => new n (List.mem_append_left _ hn)
  have later := State.IsNewTo.after (fun n hn => new n (List.mem_append_right _ hn)) plain run settled
    layout apart
  have plain₁ : (s₁.settled d).mode = .plain := by rw [settled]; exact plain
  obtain ⟨s₂, more, target', names', run', settled', layout'⟩ :=
    h' (s₁.settled d) plain₁ (by rw [settled]; exact fold) later
  have together : (s₁.settled d).adding more target' names' = s.adding (more ++ items) target' names' := by
    rw [settled]
    simp [State.adding]
  rw [State.foldlM_append run]
  by_cases ne : u = []
  · subst ne
    cases run'
    rw [State.settled_of_plain plain₁] at settled'
    exact ⟨s₁, more ++ items, target', names', rfl, settled'.trans together, layout.append layout'⟩
  · exact ⟨s₂, more ++ items, target', names', (State.foldlM_settled h'.reads ne).trans run',
      settled'.trans together, layout.append layout'⟩

/-- A named group is a field that is remembered. -/
theorem named {L : TextLanguage} (h : Embeds d t L) {name : Text} (ne : name ≠ [])
    (allowed : ∀ c ∈ name, d.allowsInName true c) : LaysNew d (namedGroup name t) [⟨some name, L⟩] := by
  intro s plain fold new
  have unused : name ∉ s.names := (new name (List.mem_singleton.2 rfl)).1
  obtain ⟨as, items, names, ⟨loc, unnamed, rfl⟩, run⟩ :=
    h.foldlM_named ne allowed plain fold fun _ => unused
  exact ⟨_, [⟨.capture name (bodyOf as items), true⟩], .piece, names, run,
    State.settled_of_plain plain, Layout.named loc unnamed name⟩

/-- Between anchors, a text that lays out fields with different names is a regex for the texts that can be
cut so. -/
theorem read?_anchored (h : LaysNew d t fs) (nodup : (fs.filterMap Field.name).Nodup) :
    ∃ items, read? d (anchored t) = some (between items) ∧ Layout items fs := by
  obtain ⟨s', items, target, names, run, settled, layout⟩ :=
    h (.anchored d) rfl rfl (State.isNewTo_anchored _)
  exact ⟨items, read?_anchored_of_run run settled (layout.names ▸ nodup), layout⟩

end LaysNew
end StepMatch.Regex
