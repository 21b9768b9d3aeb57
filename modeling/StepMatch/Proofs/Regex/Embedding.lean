import StepMatch.Proofs.Regex.Names

/-!
# A regex inside another one

What is read inside a group is read as it would be read by itself: open groups around it make no
difference, and what kind of group it is makes none before it is closed. Only in the plain dialect a
name in use could be met; a text that names no group meets none. So any regex text with nothing but
local parts in it, put in a group, takes wherever it stands the texts that it accepts alone.
-/

namespace StepMatch.Regex

namespace Scope

/-- The scope, as one of a kind if it is the outermost one. -/
def ofKind (kind : GroupKind) (outermost : Bool) (g : Scope) : Scope :=
  if outermost then { g with kind := kind } else g

/-- The scopes, the outermost one last, as one of a kind. -/
def allOfKind (kind : GroupKind) : List Scope → List Scope
  | [] => []
  | g :: gs => g.ofKind kind gs.isEmpty :: allOfKind kind gs

variable (kind : GroupKind) (outermost : Bool) (g : Scope)

@[simp] theorem ofKind_fold : (g.ofKind kind outermost).fold = g.fold := by
  cases outermost <;> rfl

@[simp] theorem ofKind_alternatives : (g.ofKind kind outermost).alternatives = g.alternatives := by
  cases outermost <;> rfl

@[simp] theorem ofKind_items : (g.ofKind kind outermost).items = g.items := by
  cases outermost <;> rfl

@[simp] theorem ofKind_target : (g.ofKind kind outermost).target = g.target := by
  cases outermost <;> rfl

theorem push_ofKind (i : Item) : (g.ofKind kind outermost).push i = (g.push i).ofKind kind outermost := by
  cases outermost <;> rfl

theorem pushRepeated_ofKind (d : Dialect) (r : Regex) :
    (g.ofKind kind outermost).pushRepeated d r = (g.pushRepeated d r).ofKind kind outermost := by
  cases outermost <;> rfl

theorem nextAlternative_ofKind :
    (g.ofKind kind outermost).nextAlternative = g.nextAlternative.ofKind kind outermost := by
  cases outermost <;> rfl

theorem pushGroup_ofKind (d : Dialect) (group : Scope) :
    (g.ofKind kind outermost).pushGroup d group = (g.pushGroup d group).ofKind kind outermost := by
  cases outermost
  · rfl
  · obtain ⟨_ | _ | _ | _ | _, _, _ | _, _ | ⟨_, _ | _⟩, _⟩ := group <;> cases d <;> rfl

end Scope

namespace State

/-- The state in a group of a kind, with other groups open around it. -/
def inside (s base : State) (kind : GroupKind) : State where
  mode := s.mode
  inner := s.inner.ofKind kind s.outer.isEmpty
  outer := Scope.allOfKind kind s.outer ++ base.inner :: base.outer
  names := s.names ++ base.names

variable {d : Dialect} {s s' base : State} {kind : GroupKind} {c : Char} {t : Text} {low : Nat}
  {high : Option Nat}

theorem continueWith_inside {g : Scope} :
    (s.inside base kind).continueWith (g.ofKind kind s.outer.isEmpty) =
      (s.continueWith g).inside base kind := rfl

theorem pushSet_inside (m : CharSet) :
    (s.inside base kind).pushSet m = (s.pushSet m).inside base kind := by
  rw [pushSet, pushSet, ← continueWith_inside, ← Scope.push_ofKind]
  simp [inside]

theorem pushRepeated_inside (r : Regex) :
    (s.inside base kind).pushRepeated d r = (s.pushRepeated d r).inside base kind := by
  rw [pushRepeated, pushRepeated, ← continueWith_inside, ← Scope.pushRepeated_ofKind]
  rfl

theorem quantify_inside (h : s.quantify low high = some s') :
    (s.inside base kind).quantify low high = some (s'.inside base kind) := by
  obtain ⟨mode, ⟨own, fold, alternatives, _ | ⟨i, items⟩, _ | _ | _⟩, outer, names⟩ := s <;>
    cases h
  cases outer <;> rfl

theorem literals_inside (t : Text) (s : State) :
    t.foldl literal (s.inside base kind) = (t.foldl literal s).inside base kind := by
  induction t generalizing s with
  | nil => rfl
  | cons c t ih =>
    rw [List.foldl_cons, List.foldl_cons, ← ih, literal, literal, pushSet_inside]

theorem openGroup_inside (own : GroupKind) (fold : Bool) :
    (s.inside base kind).openGroup own fold = (s.openGroup own fold).inside base kind := rfl

theorem pushEdge_inside (r : Regex) :
    (s.inside base kind).pushEdge d r = (s.pushEdge d r).inside base kind := by
  rw [pushEdge, pushEdge, ← continueWith_inside, ← Scope.push_ofKind]
  rfl

theorem closeGroup_inside (h : s.closeGroup d = some s') :
    (s.inside base kind).closeGroup d = some (s'.inside base kind) := by
  obtain ⟨mode, inner, _ | ⟨around, outer⟩, names⟩ := s <;> cases h
  simp only [closeGroup, inside, Scope.ofKind, Scope.allOfKind, continueWith, List.cons_append,
    List.isEmpty_cons, Bool.false_eq_true, if_false]
  exact congrArg (fun g => some (State.mk .plain g _ _)) (Scope.pushGroup_ofKind kind _ around d inner)

theorem openBrace_inside (h : s.openBrace d = some s') :
    (s.inside base kind).openBrace d = some (s'.inside base kind) := by
  have target : (s.inside base kind).inner.target = s.inner.target := by simp [inside]
  cases t : s.inner.target <;> cases d <;> simp only [openBrace, target, t] at h ⊢ <;> cases h <;>
    first | rfl | exact congrArg some (pushSet_inside _)

theorem readPlain_inside (h : s.readPlain d c = some s') :
    (s.inside base kind).readPlain d c = some (s'.inside base kind) := by
  unfold readPlain at h ⊢
  split at h
  case h_3 => exact closeGroup_inside h
  case h_4 =>
    cases h
    rw [← continueWith_inside, ← Scope.nextAlternative_ofKind]
    rfl
  case h_6 | h_13 =>
    cases h
    exact congrArg some (pushSet_inside _)
  case h_7 | h_8 =>
    cases h
    exact congrArg some (pushEdge_inside _)
  case h_9 | h_10 | h_11 => exact quantify_inside h
  case h_12 => exact openBrace_inside h
  all_goals
    cases h
    rfl

theorem readCount_inside {read : Text} (h : s.readCount d read c = some s') :
    (s.inside base kind).readCount d read c = some (s'.inside base kind) := by
  unfold readCount at h ⊢
  split at h
  · split at h
    · rename_i fits
      rw [if_pos fits]
      exact quantify_inside h
    · cases h
  · split at h
    · rename_i count
      cases h
      rw [if_pos count]
      rfl
    · rename_i noCount
      cases d with
      | plain => cases h
      | extended =>
        rw [if_neg noCount, abandonCount, literals_inside]
        exact readPlain_inside h

theorem readGroupKind_inside (h : s.readGroupKind d c = some s') :
    (s.inside base kind).readGroupKind d c = some (s'.inside base kind) := by
  have fold : (s.inside base kind).inner.fold = s.inner.fold := by simp [inside]
  unfold readGroupKind at h ⊢
  rw [fold]
  split at h <;> cases h <;> rfl

theorem readName_inside {read : Text} (same : d = .plain → s'.names = s.names)
    (h : s.readName d read c = some s') :
    (s.inside base kind).readName d read c = some (s'.inside base kind) := by
  have fold : (s.inside base kind).inner.fold = s.inner.fold := by simp [inside]
  unfold readName at h ⊢
  rw [fold]
  split at h
  · rename_i closes
    rw [if_pos closes]
    split at h <;> cases h
    rename_i free
    cases d with
    | plain => exact absurd (same rfl) (List.cons_ne_self read s.names)
    | extended =>
      have filled : read.isEmpty = false := by simpa using free
      have own : (Dialect.extended == Dialect.plain) = false := rfl
      rw [filled, own, Bool.false_and, Bool.or_false, if_neg Bool.false_ne_true]
      rfl
  · rename_i further
    rw [if_neg further]
    split at h <;> cases h
    rename_i allowed
    rw [if_pos allowed]
    rfl

theorem readQuantified_inside {greedy : Bool} {r : Regex}
    (h : s.readQuantified d greedy low high r c = some s') :
    (s.inside base kind).readQuantified d greedy low high r c = some (s'.inside base kind) := by
  unfold readQuantified at h ⊢
  split at h
  · rename_i lazy
    cases h
    rw [if_pos lazy]
    rfl
  · rename_i greedy
    rw [if_neg greedy]
    split at h
    · rename_i possessive
      cases h
      rw [if_pos possessive, pushRepeated_inside]
    · rename_i plain
      rw [if_neg plain, pushRepeated_inside]
      exact readPlain_inside h

/-- A step inside open groups is the step without them, if it names no group or may use any name. -/
theorem step_inside (same : d = .plain → s'.names = s.names) (h : step d s c = some s') :
    step d (s.inside base kind) c = some (s'.inside base kind) := by
  have fold : (s.inside base kind).inner.fold = s.inner.fold := by simp [inside]
  have mode : (s.inside base kind).mode = s.mode := rfl
  rw [step] at h ⊢
  rw [mode, fold]
  split at h
  case h_1 => exact readPlain_inside h
  case h_2 => exact readQuantified_inside h
  case h_3 =>
    split at h <;> cases h
    · exact congrArg some (pushSet_inside _)
    · exact congrArg some (pushSet_inside _)
  case h_4 =>
    split at h
    · rename_i kind
      cases h
      rw [if_pos kind]
      rfl
    · rename_i unnamed
      rw [if_neg unnamed, openGroup_inside]
      exact readPlain_inside h
  case h_5 => exact readGroupKind_inside h
  case h_6 =>
    split at h <;> cases h
    rename_i opens
    rw [if_pos opens]
    rfl
  case h_7 => exact readName_inside same h
  case h_8 =>
    split at h <;> cases h
    rename_i colon
    rw [if_pos colon]
    rfl
  case h_9 => exact readCount_inside h
  case h_10 =>
    split at h <;> cases h
    · rfl
    · exact congrArg some (pushSet_inside _)

theorem foldlM_inside (same : d = .plain → s'.names = s.names)
    (h : t.foldlM (step d) s = some s') :
    t.foldlM (step d) (s.inside base kind) = some (s'.inside base kind) := by
  induction t generalizing s with
  | nil => cases h; rfl
  | cons c t ih =>
    rw [List.foldlM_cons] at h ⊢
    obtain ⟨m, first, later⟩ := Option.bind_eq_some_iff.1 h
    have between : d = .plain → m.names = s.names := fun e =>
      (List.IsSuffix.eq_of_length (Grows.step first).kept (by
        have before := (Grows.step first).kept.length_le
        have after := (Grows.run later).kept.length_le
        rw [same e] at after
        omega)).symm
    rw [step_inside between first]
    exact ih (fun e => (same e).trans (between e).symm) later

theorem not_isStartOfCount (t : Text) : isStartOfCount (t ++ [')']) = false := by
  unfold isStartOfCount
  split
  · simp [isAsciiDigit]
  · rename_i low high cut
    obtain ⟨c, hc, e, -⟩ := Text.eq_append_of_splitAtFirst cut
    obtain rfl : c = ',' := by simpa using hc
    have last : high.getLast? = some ')' := by
      have := congrArg List.getLast? e
      rw [List.getLast?_concat, List.getLast?_append_of_ne_nil _ (by simp)] at this
      obtain _ | ⟨d, high⟩ := high
      · simp at this
      · simpa using this.symm
    obtain ⟨u, rfl⟩ := List.getLast?_eq_some_iff.1 last
    simp [isAsciiDigit]

/-- What ends a regex is what closes the group that it stands in. -/
theorem step_close {r : Regex} (h : finish d s = some r) (base : State) (kind : GroupKind) : ∃ s' : State,
    s'.outer = [] ∧ r = (s'.inner.body.lastOfEachName []).1 ∧
      step d (s.inside base kind) ')' = (s'.inside base kind).closeGroup d := by
  have complete : ∀ s' : State,
      (if s'.outer.isEmpty then some (s'.inner.body.lastOfEachName []).1 else none) = some r →
      s'.outer = [] ∧ r = (s'.inner.body.lastOfEachName []).1 := by
    intro s' e
    split at e
    · rename_i outermost
      exact ⟨List.isEmpty_iff.1 outermost, (Option.some.inj e).symm⟩
    · cases e
  have mode : (s.inside base kind).mode = s.mode := rfl
  rw [finish] at h
  rw [step, mode]
  cases own : s.mode with
  | plain =>
    rw [own] at h
    obtain ⟨outermost, e⟩ := complete _ h
    exact ⟨_, outermost, e, rfl⟩
  | quantified greedy low high q =>
    rw [own] at h
    obtain ⟨outermost, e⟩ := complete (s.pushRepeated d _) h
    refine ⟨_, outermost, e, ?_⟩
    rw [← pushRepeated_inside]
    have question : (')' == '?') = false := by decide
    have plus : (')' == '+') = false := by decide
    simp only [readQuantified, question, plus, Bool.false_and, Bool.false_eq_true, if_false]
    rfl
  | count read =>
    rw [own] at h
    cases d with
    | plain => cases h
    | extended =>
      obtain ⟨outermost, e⟩ := complete _ h
      refine ⟨_, outermost, e, ?_⟩
      have brace : (')' == '}') = false := by decide
      simp only [readCount, brace, Bool.false_eq_true, if_false, not_isStartOfCount, abandonCount]
      exact congrArg (closeGroup · .extended) (literals_inside ('{' :: read) s)
  | escape | opened | groupKind | nameBracket | name | foldColon | set =>
    rw [own] at h
    cases h

end State

variable {d : Dialect} {t : Text} {r : Regex}

/-- Any regex text makes its regex of a group that it stands in, but for groups that others of their name
come after. In the plain dialect it may name none. -/
theorem closes_of_read? (read : read? d t = some r) (unnamed : d = .plain → r.groupNames = []) :
    Closes d t fun as items => ((bodyOf as items).lastOfEachName []).1 = r := by
  intro s kind names plain
  obtain ⟨last, run, finished⟩ := Option.bind_eq_some_iff.1 read
  let base : State := { s with names := names }
  obtain ⟨s', outermost, e, close⟩ := State.step_close finished base kind
  have start : State.start.inside base kind =
      ⟨.plain, { kind := kind, fold := false }, s.inner :: s.outer, names⟩ := rfl
  refine ⟨s'.inner.ofKind kind true, s'.names ++ names, rfl, ?_, ?_⟩
  · rw [e]
    rfl
  · rw [← start, State.foldlM_append (State.foldlM_inside (fun same => ?_) run), List.foldlM_cons,
      close, State.closeGroup]
    · simp only [State.inside, outermost, Scope.allOfKind, List.nil_append, List.isEmpty_nil]
      obtain ⟨mode, inner, outer, _⟩ := s
      cases plain
      rfl
    · exact names_of_unnamed run finished (unnamed same)

/-- A plain group adds one piece with its regex, or none if there is nothing in it. -/
theorem Scope.exists_pushGroup (d : Dialect) {g : Scope} (kind : g.kind = .plain) (around : Scope) :
    ∃ items target,
      around.pushGroup d g = { around with items := items ++ around.items, target := target } ∧
        ((∃ i, items = [i] ∧ i.regex = g.body) ∨ items = [] ∧ g.body = bodyOf [] []) := by
  obtain ⟨_, fold, as, items, target⟩ := g
  obtain rfl := kind
  cases d with
  | plain => exact ⟨[_], .piece, rfl, .inl ⟨_, rfl, rfl⟩⟩
  | extended =>
    obtain _ | ⟨a, as⟩ := as
    · obtain _ | ⟨i, _ | ⟨j, items⟩⟩ := items
      · exact ⟨[], .fixed, rfl, .inr ⟨rfl, rfl⟩⟩
      · exact ⟨[i], if i.repeatable then .piece else .fixed, rfl, .inl ⟨i, rfl, rfl⟩⟩
      · exact ⟨[_], .piece, rfl, .inl ⟨_, rfl, rfl⟩⟩
    · exact ⟨[_], .piece, rfl, .inl ⟨_, rfl, rfl⟩⟩

/-- What a plain group of local parts without names adds is for their language. -/
theorem Scope.exists_stretch (d : Dialect) {g : Scope} (kind : g.kind = .plain) {L : TextLanguage}
    (own : g.body.isLocal ∧ g.body.groupNames = [] ∧ g.body.language = L) (around : Scope) :
    ∃ items target,
      around.pushGroup d g = { around with items := items ++ around.items, target := target } ∧
        Stretch false items L := by
  obtain ⟨loc, unnamed, rfl⟩ := own
  obtain ⟨items, target, pushed, ⟨i, rfl, same⟩ | ⟨rfl, empty⟩⟩ := Scope.exists_pushGroup d kind around
  · rw [← same] at loc unnamed
    refine ⟨[i], target, pushed, ?_⟩
    rw [← same]
    exact ⟨by simpa using loc, by simpa using unnamed, by simp, by simp⟩
  · refine ⟨[], target, pushed, ?_⟩
    rw [empty]
    exact .nil

/-- Between brackets, whatever these do, the text writes the language. -/
def Embeds (d : Dialect) (t : Text) (L : TextLanguage) : Prop :=
  Closes d t fun as items => (bodyOf as items).isLocal ∧ (bodyOf as items).groupNames = [] ∧
    (bodyOf as items).language = L

/-- What writes a language between brackets writes it as a group. -/
theorem Embeds.writes_grouped {L : TextLanguage} (h : Embeds d t L) : Writes false d (grouped t) L := by
  intro s plain fold
  obtain ⟨g, after, kind, own, run⟩ := h s .plain s.names plain
  obtain ⟨items, target, pushed, stretch⟩ := Scope.exists_stretch d kind own s.inner
  rw [foldlM_grouped plain fold, run, pushed]
  exact ⟨_, items, target, after, rfl, State.settled_of_plain plain, stretch⟩

theorem WritesBody.embeds {L : TextLanguage} (h : WritesBody false d t L) : Embeds d t L := by
  intro s kind names plain
  obtain ⟨g, after, own, body, run⟩ := h.addsBody.closes s kind names plain
  exact ⟨g, after, own, body.bodyOf, run⟩

theorem embeds_of_read? (read : read? d t = some r) (loc : r.isLocal) (unnamed : r.groupNames = []) :
    Embeds d t r.language := by
  intro s kind names plain
  obtain ⟨g, after, own, last, run⟩ := closes_of_read? read (fun _ => unnamed) s kind names plain
  have body : bodyOf g.alternatives g.items = r := by
    rwa [lastOfEachName_of_unnamed (last ▸ unnamed)] at last
  rw [← body] at loc unnamed ⊢
  exact ⟨g, after, own, ⟨loc, unnamed, rfl⟩, run⟩

/-- Any regex text with local parts and no names, put in a group, writes the language of its
regex. -/
theorem writes_grouped_of_read? (read : read? d t = some r) (loc : r.isLocal)
    (unnamed : r.groupNames = []) : Writes false d (grouped t) r.language :=
  (embeds_of_read? read loc unnamed).writes_grouped

/-- So does what writes a language between brackets. -/
theorem WritesBody.writes_grouped {L : TextLanguage} (h : WritesBody false d t L) :
    Writes false d (Regex.grouped t) L :=
  h.embeds.writes_grouped

/-- Whether a regex text is one that looks at nothing but what it takes, fixes no choice, and names
nothing. -/
def isLocalText (t : Text) : Bool :=
  (read? .extended t).any fun r => r.isLocal && r.groupNames.isEmpty

/-- A regex text by itself accepts a whole text. -/
def Accepts (t w : Text) : Prop :=
  ∃ r, read? .extended (anchored (grouped t)) = some r ∧ r.isMatch w

/-- The texts that a regex text by itself accepts. -/
def accepted (t : Text) : TextLanguage := {w | Accepts t w}

variable {t w : Text} {firm : Bool} {L : TextLanguage}

theorem accepted_eq (h : Writes firm .extended (grouped t) L) : accepted t = L := by
  obtain ⟨r, read, matches_iff⟩ := h.read?_anchored
  refine Language.ext fun w => ?_
  constructor
  · rintro ⟨r', read', accepts⟩
    obtain rfl := Option.some.inj (read'.symm.trans read)
    exact (matches_iff w).1 accepts
  · intro hw
    exact ⟨r, read, (matches_iff w).2 hw⟩

/-- In a group, such a text takes what it accepts. -/
theorem writes_grouped_accepted (h : isLocalText t) :
    Writes false .extended (grouped t) (accepted t) := by
  obtain ⟨r, read, ok⟩ := Option.any_eq_true _ _ |>.1 h
  obtain ⟨loc, unnamed⟩ := Bool.and_eq_true_iff.1 ok
  have writes := writes_grouped_of_read? read loc (List.isEmpty_iff.1 unnamed)
  exact (accepted_eq writes).symm ▸ writes

/-- What writes a language between brackets is such a text, and accepts that language. -/
theorem WritesBody.isLocalText_and_accepted (h : WritesBody firm .extended t L) :
    isLocalText t ∧ accepted t = L := by
  obtain ⟨s', as, items, target, names, run, settled, body⟩ := h .start rfl rfl rfl
  obtain ⟨loc, unnamed, language⟩ :=
    body.scope (g := ⟨.plain, false, as, items, target⟩) rfl rfl
  have read : read? .extended t = some (⟨.plain, false, as, items, target⟩ : Scope).body := by
    rw [read?, run, Option.bind_some, State.finish_settled, settled]
    have last := (lastOfEachName_eq (⟨.plain, false, as, items, target⟩ : Scope).body []
      (by rw [unnamed]; exact .nil) (by simp)).1
    simp only [State.start, List.append_nil]
    exact congrArg some last
  refine ⟨?_, ?_⟩
  · rw [isLocalText, read]
    simp [loc, unnamed]
  · rw [accepted_eq (writes_grouped_of_read? read loc unnamed), language]

/-! ### Either dialect -/

/-- A regex text by itself takes a whole text, as it is read in a dialect. -/
def Takes (d : Dialect) (t w : Text) : Prop :=
  ∃ r, read? d (anchored (grouped t)) = some r ∧ r.isMatch w

/-- Whether a regex text, as it is read in a dialect, looks at nothing but what it takes, fixes no
choice, and names nothing. -/
def isLocalIn (d : Dialect) (t : Text) : Bool :=
  (read? d t).any fun r => r.isLocal && r.groupNames.isEmpty

theorem takes_iff {d : Dialect} (h : Writes firm d (grouped t) L) : Takes d t w ↔ w ∈ L := by
  obtain ⟨r, read, matches_iff⟩ := h.read?_anchored
  constructor
  · intro takes
    obtain ⟨r', read', accepts⟩ := takes
    rw [read] at read'
    rw [Option.some.inj read'] at matches_iff
    exact (matches_iff w).1 accepts
  · intro hw
    exact ⟨r, read, (matches_iff w).2 hw⟩

/-- Such a text writes the texts that it takes, wherever it stands between brackets. -/
theorem embeds_of_isLocalIn {d : Dialect} (h : isLocalIn d t) : Embeds d t {w | Takes d t w} := by
  obtain ⟨r, read, ok⟩ := Option.any_eq_true _ _ |>.1 h
  obtain ⟨loc, unnamed⟩ := Bool.and_eq_true_iff.1 ok
  have embeds := embeds_of_read? read loc (List.isEmpty_iff.1 unnamed)
  have same : {w | Takes d t w} = r.language := by
    apply Set.ext
    intro w
    exact takes_iff embeds.writes_grouped
  rw [same]
  exact embeds

end StepMatch.Regex
