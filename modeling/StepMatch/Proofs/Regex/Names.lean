import StepMatch.Proofs.Regex.Anchored

/-!
# Names in use

The names that are in use while a regex is read are those of its groups, open ones and complete ones.
A name stays in use. So if a regex names no group, then no name was in use at any time.
-/

namespace StepMatch.Regex

/-- The name of a group of a kind, if it has one. -/
def GroupKind.names : GroupKind → List Text
  | .named name => [name]
  | _ => []

/-- The names of the groups in a scope, its own one included. -/
def Scope.groupNames (g : Scope) : List Text :=
  g.kind.names ++ (g.items.flatMap (·.regex.groupNames) ++ g.alternatives.flatMap Regex.groupNames)

/-- The names of the groups in the piece that waits for the end of its quantifier. -/
def Mode.groupNames : Mode → List Text
  | .quantified _ _ _ r => r.groupNames
  | _ => []

namespace State

/-- The names of all groups, open ones and complete ones. -/
def groupNames (s : State) : List Text :=
  s.mode.groupNames ++ (s.inner :: s.outer).flatMap Scope.groupNames

/-- The kind of the outermost scope. -/
def outermostKind (s : State) : GroupKind := (s.outer.getLast?.getD s.inner).kind

/-- From one state to a later one, groups keep their names, names stay in use, and what is new
among them is the name of a group. -/
structure Grows (s s' : State) : Prop where
  groups : ∀ n ∈ s.groupNames, n ∈ s'.groupNames
  outermost : s'.outermostKind = s.outermostKind
  kept : s.names <:+ s'.names
  new : ∀ n ∈ s'.names, n ∈ s.names ∨ n ∈ s'.groupNames

end State

variable {d : Dialect} {s s' s'' : State} {c : Char} {t : Text} {low : Nat} {high : Option Nat}

theorem mem_groupNames_concat {n : Text} {rs : List Regex} :
    n ∈ (concat rs).groupNames ↔ ∃ r ∈ rs, n ∈ r.groupNames := by
  rw [groupNames_concat, List.mem_flatMap]

theorem mem_groupNames_anyOf {n : Text} {rs : List Regex} :
    n ∈ (anyOf rs).groupNames ↔ ∃ r ∈ rs, n ∈ r.groupNames := by
  rw [groupNames_anyOf, List.mem_flatMap]

namespace Scope

variable {g : Scope} {n : Text}

theorem mem_groupNames_iff : n ∈ g.groupNames ↔ n ∈ g.kind.names ∨
    (∃ i ∈ g.items, n ∈ i.regex.groupNames) ∨ ∃ r ∈ g.alternatives, n ∈ r.groupNames := by
  simp [groupNames]

theorem mem_groupNames_lastAlternative :
    n ∈ g.lastAlternative.groupNames ↔ ∃ i ∈ g.items, n ∈ i.regex.groupNames := by
  simp [lastAlternative, mem_groupNames_concat]

/-- The names in a scope are its own and those of what is between its brackets. -/
theorem mem_groupNames_iff_body :
    n ∈ g.groupNames ↔ n ∈ g.kind.names ∨ n ∈ g.body.groupNames := by
  rw [mem_groupNames_iff, body, mem_groupNames_anyOf]
  simp only [List.mem_reverse, List.mem_cons, exists_eq_or_imp, mem_groupNames_lastAlternative]

theorem mem_groupNames_push {i : Item} :
    n ∈ (g.push i).groupNames ↔ n ∈ i.regex.groupNames ∨ n ∈ g.groupNames := by
  simp only [mem_groupNames_iff, push, List.mem_cons, exists_eq_or_imp, or_assoc]
  exact or_left_comm

theorem mem_groupNames_pushRepeated {r : Regex} :
    n ∈ (g.pushRepeated d r).groupNames ↔ n ∈ r.groupNames ∨ n ∈ g.groupNames := by
  simp only [mem_groupNames_iff, pushRepeated, List.mem_cons, exists_eq_or_imp, or_assoc]
  exact or_left_comm

theorem mem_groupNames_nextAlternative :
    n ∈ g.nextAlternative.groupNames ↔ n ∈ g.groupNames := by
  simp only [mem_groupNames_iff, nextAlternative, List.mem_cons, exists_eq_or_imp,
    mem_groupNames_lastAlternative, List.not_mem_nil, false_and, exists_false, false_or]

/-- What a complete group stands for has the names in it and its own. -/
theorem mem_groupNames_close :
    n ∈ (g.kind.close g.body).groupNames ↔ n ∈ g.groupNames := by
  rw [mem_groupNames_iff_body]
  cases g.kind <;> simp [GroupKind.close, GroupKind.names, Regex.groupNames, or_comm]

theorem kind_pushGroup (d : Dialect) (around g : Scope) :
    (around.pushGroup d g).kind = around.kind := by
  unfold pushGroup
  split <;> rfl

theorem mem_groupNames_pushGroup {around : Scope}
    (h : n ∈ around.groupNames ∨ n ∈ g.groupNames) : n ∈ (around.pushGroup d g).groupNames := by
  have complete {i : Item} (own : n ∈ g.groupNames → n ∈ i.regex.groupNames) :
      n ∈ (around.push i).groupNames := mem_groupNames_push.2 (h.symm.imp_left own)
  obtain ⟨kind, fold, alternatives, items, target⟩ := g
  unfold pushGroup
  split
  · rename_i plain none empty
    simp only at plain none empty
    subst plain none empty
    exact h.resolve_right (by simp [mem_groupNames_iff, GroupKind.names])
  · rename_i i plain none single
    simp only at plain none single
    subst plain none single
    exact complete fun own => by simpa [mem_groupNames_iff, GroupKind.names] using own
  · rename_i ahead
    simp only at ahead
    subst ahead
    exact complete mem_groupNames_close.2
  · exact complete mem_groupNames_close.2

end Scope

namespace State

theorem mem_groupNames_iff {n : Text} : n ∈ s.groupNames ↔
    n ∈ s.mode.groupNames ∨ n ∈ s.inner.groupNames ∨ ∃ g ∈ s.outer, n ∈ g.groupNames := by
  simp [groupNames]

namespace Grows

theorem refl (s : State) : Grows s s :=
  ⟨fun _ h => h, rfl, List.suffix_refl _, fun _ h => .inl h⟩

theorem trans (h : Grows s s') (h' : Grows s' s'') : Grows s s'' where
  groups n hn := h'.groups n (h.groups n hn)
  outermost := h'.outermost.trans h.outermost
  kept := h.kept.trans h'.kept
  new n hn := (h'.new n hn).elim (fun hn => (h.new n hn).imp_right (h'.groups n)) .inr

/-- The names in use stay, and groups keep their names. -/
theorem same (groups : ∀ n ∈ s.groupNames, n ∈ s'.groupNames)
    (outermost : s'.outermostKind = s.outermostKind) (names : s'.names = s.names) : Grows s s' where
  groups := groups
  outermost := outermost
  kept := by rw [names]
  new n hn := .inl (names ▸ hn)

/-- Another mode without names in it. -/
theorem mode (quiet : s.mode.groupNames = []) (m : Mode) : Grows s { s with mode := m } := by
  refine same (fun n hn => ?_) rfl rfl
  rw [mem_groupNames_iff, quiet] at hn
  rw [mem_groupNames_iff]
  exact .inr (hn.resolve_left List.not_mem_nil)

theorem continueWith (quiet : s.mode.groupNames = []) {g : Scope} (kind : g.kind = s.inner.kind)
    (h : ∀ n ∈ s.inner.groupNames, n ∈ g.groupNames) : Grows s (s.continueWith g) := by
  have outermost : (s.continueWith g).outermostKind = s.outermostKind := by
    unfold outermostKind State.continueWith
    cases s.outer.getLast? with
    | none => exact kind
    | some _ => rfl
  refine same (fun n hn => ?_) outermost rfl
  rw [mem_groupNames_iff, quiet] at hn
  rw [mem_groupNames_iff]
  exact .inr ((hn.resolve_left List.not_mem_nil).imp_left (h n))

theorem pushSet (quiet : s.mode.groupNames = []) (m : CharSet) : Grows s (s.pushSet m) :=
  continueWith quiet rfl fun _ hn => Scope.mem_groupNames_push.2 (.inr hn)

theorem pushEdge (quiet : s.mode.groupNames = []) (r : Regex) : Grows s (s.pushEdge d r) :=
  continueWith quiet rfl fun _ hn => Scope.mem_groupNames_push.2 (.inr hn)

theorem literals (quiet : s.mode.groupNames = []) (t : Text) :
    Grows s (t.foldl literal s) ∧ (t.foldl literal s).mode.groupNames = [] := by
  induction t generalizing s with
  | nil => exact ⟨refl s, quiet⟩
  | cons c t ih =>
    obtain ⟨later, quiet'⟩ := ih (s := s.literal c) rfl
    exact ⟨(pushSet quiet _).trans later, quiet'⟩

/-- The piece that waited for the end of its quantifier is put in its place. -/
theorem pushRepeated {r : Regex} (h : ∀ n ∈ s.mode.groupNames, n ∈ r.groupNames) :
    Grows s (s.pushRepeated d r) := by
  have outermost : (s.pushRepeated d r).outermostKind = s.outermostKind := by
    unfold outermostKind State.pushRepeated State.continueWith
    cases s.outer.getLast? <;> rfl
  refine same (fun n hn => ?_) outermost rfl
  rw [mem_groupNames_iff] at hn
  rw [mem_groupNames_iff]
  obtain hn | hn | hn := hn
  · exact .inr (.inl (Scope.mem_groupNames_pushRepeated.2 (.inl (h n hn))))
  · exact .inr (.inl (Scope.mem_groupNames_pushRepeated.2 (.inr hn)))
  · exact .inr (.inr hn)

theorem quantify (quiet : s.mode.groupNames = []) (h : s.quantify low high = some s') :
    Grows s s' := by
  unfold State.quantify at h
  split at h
  · rename_i i items target found
    cases h
    refine same (fun n hn => ?_) ?_ rfl
    swap
    · unfold outermostKind
      cases s.outer.getLast? <;> rfl
    rw [mem_groupNames_iff, quiet, Scope.mem_groupNames_iff, found] at hn
    rw [mem_groupNames_iff, Scope.mem_groupNames_iff]
    simp only [List.not_mem_nil, List.mem_cons, exists_eq_or_imp, false_or, or_assoc] at hn
    simp only [Mode.groupNames, or_assoc]
    exact or_left_comm.1 hn
  · cases h

theorem openGroup (quiet : s.mode.groupNames = []) (kind : GroupKind) (fold : Bool) :
    Grows s (s.openGroup kind fold) := by
  have outermost : (s.openGroup kind fold).outermostKind = s.outermostKind := by
    simp only [outermostKind, State.openGroup, List.getLast?_cons, Option.getD_some]
  refine same (fun n hn => ?_) outermost rfl
  rw [mem_groupNames_iff, quiet] at hn
  rw [mem_groupNames_iff]
  simp only [State.openGroup, List.mem_cons, exists_eq_or_imp]
  exact .inr (.inr (hn.resolve_left List.not_mem_nil))

theorem closeGroup (quiet : s.mode.groupNames = []) (h : s.closeGroup d = some s') :
    Grows s s' := by
  unfold State.closeGroup at h
  split at h
  · cases h
  · rename_i around outer isOpen
    cases h
    have outermost : (outer.getLast?.getD (around.pushGroup d s.inner)).kind
        = (outer.getLast?.getD around).kind := by
      cases outer.getLast? with
      | none => exact Scope.kind_pushGroup d around s.inner
      | some _ => rfl
    have kept : s.outermostKind = (outer.getLast?.getD around).kind := by
      rw [outermostKind, isOpen, List.getLast?_cons, Option.getD_some]
    refine same (fun n hn => ?_) (outermost.trans kept.symm) rfl
    rw [mem_groupNames_iff, quiet, isOpen] at hn
    rw [mem_groupNames_iff]
    simp only [List.not_mem_nil, List.mem_cons, exists_eq_or_imp, false_or] at hn
    obtain own | first | later := hn
    · exact .inr (.inl (Scope.mem_groupNames_pushGroup (.inr own)))
    · exact .inr (.inl (Scope.mem_groupNames_pushGroup (.inl first)))
    · exact .inr (.inr later)

theorem readPlain (quiet : s.mode.groupNames = []) (h : s.readPlain d c = some s') :
    Grows s s' := by
  unfold State.readPlain at h
  split at h
  case h_1 | h_2 | h_5 =>
    cases h
    exact mode quiet _
  case h_3 => exact closeGroup quiet h
  case h_4 =>
    cases h
    exact continueWith quiet rfl fun _ hn => Scope.mem_groupNames_nextAlternative.2 hn
  case h_6 | h_13 =>
    cases h
    exact pushSet quiet _
  case h_7 | h_8 =>
    cases h
    exact pushEdge quiet _
  case h_9 | h_10 | h_11 => exact quantify quiet h
  case h_12 =>
    unfold openBrace at h
    split at h <;> cases h
    · exact pushSet quiet _
    · exact mode quiet _

theorem readQuantified {greedy : Bool} {r : Regex}
    (own : s.mode = .quantified greedy low high r)
    (h : s.readQuantified d greedy low high r c = some s') : Grows s s' := by
  have waiting : s.mode.groupNames = r.groupNames := by rw [own]; rfl
  unfold State.readQuantified at h
  split at h
  · cases h
    refine same (fun n hn => ?_) rfl rfl
    rw [mem_groupNames_iff, waiting] at hn
    exact mem_groupNames_iff.2 hn
  · split at h
    · cases h
      exact pushRepeated fun n hn => waiting ▸ hn
    · exact (pushRepeated fun n hn => waiting ▸ hn).trans (readPlain rfl h)

theorem readCount {read : Text} (quiet : s.mode.groupNames = [])
    (h : s.readCount d read c = some s') : Grows s s' := by
  unfold State.readCount at h
  split at h
  · split at h
    · exact quantify quiet h
    · cases h
  · split at h
    · cases h
      exact mode quiet _
    · obtain ⟨m, abandoned, later⟩ := Option.bind_eq_some_iff.1 h
      unfold abandonCount at abandoned
      split at abandoned
      · cases abandoned
      · cases abandoned
        obtain ⟨literal, quiet'⟩ := literals quiet ('{' :: read)
        exact literal.trans (readPlain quiet' later)

theorem readName {read : Text} (quiet : s.mode.groupNames = [])
    (h : s.readName d read c = some s') : Grows s s' := by
  unfold State.readName at h
  split at h
  · split at h
    · cases h
    · cases h
      have opened := openGroup quiet (.named read) s.inner.fold
      refine ⟨fun n hn => ?_, opened.outermost, List.suffix_cons _ _, fun n hn => ?_⟩
      · exact mem_groupNames_iff.2 (mem_groupNames_iff.1 (opened.groups n hn))
      · refine (List.mem_cons.1 hn).symm.imp_right fun e => ?_
        rw [e, mem_groupNames_iff, Scope.mem_groupNames_iff]
        exact .inr (.inl (.inl List.mem_cons_self))
  · split at h
    · cases h
      exact mode quiet _
    · cases h

/-- Any step. -/
theorem step (h : State.step d s c = some s') : Grows s s' := by
  rw [State.step] at h
  split at h
  case h_1 own => exact readPlain (by rw [own]; rfl) h
  case h_2 own => exact readQuantified own h
  case h_3 own =>
    split at h <;> cases h
    · exact pushSet (by rw [own]; rfl) _
    · exact pushSet (by rw [own]; rfl) _
  case h_4 own =>
    have quiet : s.mode.groupNames = [] := by rw [own]; rfl
    split at h
    · cases h
      exact mode quiet _
    · exact (openGroup quiet _ _).trans (readPlain rfl h)
  case h_5 own =>
    have quiet : s.mode.groupNames = [] := by rw [own]; rfl
    unfold readGroupKind at h
    split at h <;> cases h
    · exact openGroup quiet _ _
    · exact openGroup quiet _ _
    · exact openGroup quiet _ _
    · exact openGroup quiet _ _
    · exact mode quiet _
    · exact mode quiet _
    · exact mode quiet _
  case h_6 own =>
    split at h <;> cases h
    exact mode (by rw [own]; rfl) _
  case h_7 own => exact readName (by rw [own]; rfl) h
  case h_8 own =>
    split at h <;> cases h
    exact openGroup (by rw [own]; rfl) _ _
  case h_9 own => exact readCount (by rw [own]; rfl) h
  case h_10 own =>
    split at h <;> cases h
    · exact mode (by rw [own]; rfl) _
    · exact pushSet (by rw [own]; rfl) _

/-- Any text. -/
theorem run (h : t.foldlM (State.step d) s = some s') : Grows s s' := by
  induction t generalizing s with
  | nil =>
    cases h
    exact refl _
  | cons c t ih =>
    rw [List.foldlM_cons] at h
    obtain ⟨m, first, later⟩ := Option.bind_eq_some_iff.1 h
    exact (step first).trans (ih later)

end Grows
end State

/-- Without names in the outcome, no group was forgotten. -/
theorem lastOfEachName_of_unnamed {r : Regex} (h : (r.lastOfEachName []).1.groupNames = []) :
    r.lastOfEachName [] = (r, []) := by
  induction r with
  | empty | chars | atStart | atEnd => rfl
  | seq r s ihr ihs | alt r s ihr ihs =>
    obtain ⟨hr, hs⟩ := List.append_eq_nil_iff.1 h
    have es := ihs hs
    simp only [lastOfEachName, es] at hr ⊢
    rw [ihr hr]
  | repeated greedy low high r ih | ahead wanted r ih | atomic r ih =>
    have e := ih h
    simp only [lastOfEachName, e]
  | capture name r ih =>
    simp only [lastOfEachName] at h
    split at h
    · rename_i later
      rw [ih h] at later
      cases later
    · simp [groupNames] at h

/-- A regex that names no group was read without any name in use. -/
theorem names_of_unnamed {r : Regex} (run : t.foldlM (State.step d) .start = some s)
    (finished : s.finish d = some r) (unnamed : r.groupNames = []) : s.names = [] := by
  have grows := State.Grows.run run
  have complete (s' : State) (later : State.Grows s s') (quiet : s'.mode.groupNames = [])
      (closed : (if s'.outer.isEmpty then some (s'.inner.body.lastOfEachName []).1 else none)
        = some r) : s.names = [] := by
    split at closed
    · rename_i outermost
      have last := Option.some.inj closed
      rw [← last] at unnamed
      rw [lastOfEachName_of_unnamed unnamed] at unnamed
      have plain := later.outermost.trans grows.outermost
      rw [State.outermostKind, List.isEmpty_iff.1 outermost] at plain
      have own : s'.inner.kind = .plain := plain
      refine List.eq_nil_iff_forall_not_mem.2 fun n hn => ?_
      have named := later.groups n ((grows.new n hn).resolve_left List.not_mem_nil)
      rw [State.mem_groupNames_iff, quiet, List.isEmpty_iff.1 outermost,
        Scope.mem_groupNames_iff_body, unnamed, own] at named
      simp [GroupKind.names] at named
    · cases closed
  rw [State.finish] at finished
  split at finished
  · rename_i own
    exact complete s (.refl s) (by rw [own]; rfl) finished
  · rename_i own
    exact complete _ (.pushRepeated fun n hn => by rw [own] at hn; exact hn) rfl finished
  · rename_i read own
    have quiet : s.mode.groupNames = [] := by rw [own]; rfl
    obtain ⟨s', abandoned, closed⟩ := Option.bind_eq_some_iff.1 finished
    unfold State.abandonCount at abandoned
    split at abandoned
    · cases abandoned
    · cases abandoned
      obtain ⟨later, quiet'⟩ := State.Grows.literals quiet ('{' :: read)
      exact complete _ later quiet' closed
  · cases finished

end StepMatch.Regex
