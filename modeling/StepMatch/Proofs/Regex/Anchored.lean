import StepMatch.Proofs.Regex.Fields

/-!
# Searching in a whole text

A regex between the edges of the text matches from the very start or not at all. If it lays out
fields, then it matches the texts that can be cut along these, and what the search remembers are
the pieces of such a cut.
-/

namespace StepMatch.Regex

variable {r : Regex} {rs : List Regex} {fs : List Field} {d : Dialect} {t : Text}

theorem isRegular_concat_iff : (concat rs).isRegular ↔ ∀ r ∈ rs, r.isRegular := by
  obtain _ | ⟨r, rs⟩ := rs
  · simp [concat, isRegular]
  · rw [concat]
    induction rs generalizing r with
    | nil => simp
    | cons s rs ih => simp [ih (r := .seq r s), isRegular, and_assoc]

/-- Where no name is given twice, every group is the last one of its name. -/
theorem lastOfEachName_eq (r : Regex) (later : List Text) (nodup : r.groupNames.Nodup)
    (new : ∀ name ∈ r.groupNames, name ∉ later) :
    (r.lastOfEachName later).1 = r ∧
      ∀ name, name ∈ (r.lastOfEachName later).2 ↔ name ∈ r.groupNames ∨ name ∈ later := by
  induction r generalizing later with
  | empty | chars | atStart | atEnd => simp [lastOfEachName, groupNames]
  | seq r s ihr ihs | alt r s ihr ihs =>
    obtain ⟨nr, ns, disjoint⟩ := List.nodup_append.1 nodup
    obtain ⟨es, ms⟩ := ihs later ns fun name hn => new name (List.mem_append_right _ hn)
    obtain ⟨er, mr⟩ := ihr (s.lastOfEachName later).2 nr fun name hn => by
      rw [ms]
      rintro (h | h)
      · exact disjoint name hn name h rfl
      · exact new name (List.mem_append_left _ hn) h
    refine ⟨by simp only [lastOfEachName, er, es], fun name => ?_⟩
    simp only [lastOfEachName, groupNames, mr, ms, List.mem_append, or_assoc]
  | repeated greedy low high r ih | ahead wanted r ih | atomic r ih =>
    obtain ⟨e, m⟩ := ih later nodup new
    exact ⟨by simp only [lastOfEachName, e], m⟩
  | capture name r ih =>
    obtain ⟨nr, -, disjoint⟩ := List.nodup_append.1 nodup
    obtain ⟨e, m⟩ := ih later nr fun name hn => new name (List.mem_append_left _ hn)
    have fresh : name ∉ (r.lastOfEachName later).2 := by
      rw [m]
      rintro (h | h)
      · exact disjoint name h name (List.mem_singleton.2 rfl) rfl
      · exact new name (List.mem_append_right _ (List.mem_singleton.2 rfl)) h
    have fresh : (r.lastOfEachName later).2.contains name = false := by simpa using fresh
    simp only [lastOfEachName, fresh, Bool.false_eq_true, if_false, e, groupNames, true_and]
    intro other
    rw [List.mem_cons, m, List.mem_append, List.mem_singleton, or_left_comm, or_assoc]

theorem searchFrom_eq_none (h : ∀ p : Place, p.offset ≠ 0 → r.outcomes p = []) (t : Text)
    {offset : Nat} (ne : offset ≠ 0) : r.searchFrom offset t = none := by
  induction t generalizing offset with
  | nil => rw [searchFrom, h _ ne]; rfl
  | cons c t ih =>
    rw [searchFrom, h _ ne]
    exact ih (Nat.succ_ne_zero offset)

/-- A regex that matches at the very start only is searched there. -/
theorem search_eq_head? (h : ∀ p : Place, p.offset ≠ 0 → r.outcomes p = []) (t : Text) :
    r.search t = (r.outcomes ⟨0, t⟩).head? := by
  obtain _ | ⟨c, t⟩ := t
  · rfl
  · rw [search, searchFrom]
    cases r.outcomes ⟨0, c :: t⟩ with
    | nil => exact searchFrom_eq_none h t (Nat.succ_ne_zero 0)
    | cons o os => rfl

/-- The regex between the edges of the text of pieces, last one first. -/
def between (items : List Item) : Regex :=
  concat (.atStart :: items.reverse.map Item.regex ++ [.atEnd])

theorem groupNames_between (items : List Item) :
    (between items).groupNames = items.reverse.flatMap fun i => i.regex.groupNames := by
  rw [between, groupNames_concat, List.flatMap_append, List.flatMap_cons, List.flatMap_map]
  simp [groupNames]

theorem spans_between {items : List Item} (h : Layout items fs) (p q : Place) (cs : Captures) :
    (between items).Spans p q cs ↔ p.offset = 0 ∧ q.rest = [] ∧
      ∃ ws, Cut fs ws ∧ p.Reads ws.flatten q ∧ cs = cutCaptures fs ws := by
  have whole : (between items).Spans =
      (Regex.atStart.Spans.comp (Step.all (items.reverse.map fun i => i.regex.Spans))).comp
        Regex.atEnd.Spans := by
    rw [between, spans_concat, List.map_append, Step.all_append, List.map_cons, List.map_map]
    exact congrArg _ (Step.comp_stay _)
  rw [whole]
  constructor
  · rintro ⟨m, _, _, ⟨_, _, cs', ⟨start, rfl, rfl⟩, inner, rfl⟩, ⟨stop, rfl, rfl⟩, rfl⟩
    obtain ⟨ws, cut, reads, rfl⟩ := (h.cuts _ _ _).1 inner
    exact ⟨start, stop, ws, cut, reads, by simp⟩
  · rintro ⟨start, stop, ws, cut, reads, rfl⟩
    exact ⟨q, cutCaptures fs ws, [], ⟨p, [], cutCaptures fs ws, ⟨start, rfl, rfl⟩,
      (h.cuts _ _ _).2 ⟨ws, cut, reads, rfl⟩, rfl⟩, ⟨stop, rfl, rfl⟩, by simp⟩

theorem isRegular_between {items : List Item} (h : Layout items fs) : (between items).isRegular :=
  isRegular_concat_iff.2 fun r hr => by
    simp only [List.cons_append, List.mem_cons, List.mem_append, List.not_mem_nil, or_false] at hr
    obtain rfl | hr | rfl := hr
    · rfl
    · obtain ⟨i, hi, rfl⟩ := List.mem_map.1 hr
      exact h.isRegular i (List.mem_reverse.1 hi)
    · rfl

/-- However it matches, a regex between the edges of the text cuts the text along its fields. -/
theorem cut_of_mem_outcomes {items : List Item} (h : Layout items fs) {o : Outcome}
    (ho : o ∈ (between items).outcomes ⟨0, t⟩) :
    ∃ ws, Cut fs ws ∧ ws.flatten = t ∧ o.captures = cutCaptures fs ws := by
  obtain ⟨-, stop, ws, cut, reads, e⟩ :=
    (spans_between h _ _ _).1 (spans_of_mem_outcomes (isRegular_between h) ho)
  have whole := reads.1
  rw [stop, List.append_nil] at whole
  exact ⟨ws, cut, whole.symm, e⟩

theorem search_between_eq_head? {items : List Item} (h : Layout items fs) (t : Text) :
    (between items).search t = ((between items).outcomes ⟨0, t⟩).head? := by
  refine search_eq_head? (fun p ne => ?_) t
  rw [List.eq_nil_iff_forall_not_mem]
  intro o ho
  exact ne ((spans_between h _ _ _).1 (spans_of_mem_outcomes (isRegular_between h) ho)).1

/-- A search between the edges of the text finds a cut of the text along the fields, if there is
one. -/
theorem search_between {items : List Item} (h : Layout items fs) (t : Text) :
    (∀ o, (between items).search t = some o →
      ∃ ws, Cut fs ws ∧ ws.flatten = t ∧ o.captures = cutCaptures fs ws) ∧
    ((between items).search t = none → ∀ ws, Cut fs ws → ws.flatten ≠ t) := by
  rw [search_between_eq_head? h]
  constructor
  · exact fun o ho => cut_of_mem_outcomes h (List.mem_of_mem_head? ho)
  · rintro none ws cut rfl
    have link : (between items).Spans.Links ⟨0, ws.flatten⟩ ⟨ws.flatten.length, []⟩ :=
      ⟨_, (spans_between h _ _ _).2 ⟨rfl, rfl, ws, cut, by simp [Place.Reads], rfl⟩⟩
    obtain ⟨o, ho, -⟩ := exists_outcome (isRegular_between h) link
    rw [List.head?_eq_none_iff] at none
    rw [none] at ho
    cases ho

/-- Of groups with different names, each is found under its own. -/
theorem group?_of_mem {o : Outcome} (nodup : (o.captures.map Prod.fst).Nodup) {name w : Text}
    (mem : (name, w) ∈ o.captures) : o.group? name = some w := by
  rw [Outcome.group?]
  cases found : o.captures.reverse.find? fun capture => capture.1 == name with
  | none =>
    rw [List.find?_eq_none] at found
    exact absurd (beq_self_eq_true name) (found _ (List.mem_reverse.2 mem))
  | some x =>
    have hx := List.mem_reverse.1 (List.mem_of_find?_eq_some found)
    have key : x.1 = name := by simpa using List.find?_some found
    rw [List.inj_on_of_nodup_map nodup hx mem key]
    rfl

theorem group?_eq_none {o : Outcome} {name : Text} (h : ∀ w, (name, w) ∉ o.captures) :
    o.group? name = none := by
  have none : o.captures.reverse.find? (fun capture => capture.1 == name) = none := by
    rw [List.find?_eq_none]
    rintro ⟨own, w⟩ mem same
    obtain rfl : own = name := by simpa using same
    exact h w (List.mem_reverse.1 mem)
  rw [Outcome.group?, none]
  rfl

theorem group?_of_zip {o : Outcome} {names texts : List Text} (h : o.captures = names.zip texts)
    (length : texts.length = names.length) (nodup : names.Nodup) {i : Nat} {name w : Text}
    (hn : names[i]? = some name) (hw : texts[i]? = some w) : o.group? name = some w := by
  refine group?_of_mem ?_ ?_
  · rw [h, List.map_fst_zip length.ge]
    exact nodup
  · rw [h]
    exact List.mem_of_getElem? (i := i) (by simp [List.getElem?_zip_eq_some, hn, hw])

/-- The state behind the anchor that opens a regex. -/
def State.anchored (d : Dialect) : State :=
  { start with inner := start.inner.push ⟨.atStart, d == .plain⟩ }

/-- Between anchors, pieces are the regex, but for groups that others of their name come after. -/
theorem read?_anchored_eq {s' : State} {items : List Item} {target : Target} {names : List Text}
    (run : t.foldlM (State.step d) (.anchored d) = some s')
    (settled : s'.settled d = (State.anchored d).adding items target names) :
    read? d (anchored t) = some ((between items).lastOfEachName []).1 := by
  have opened : ['^'].foldlM (State.step d) State.start = some (.anchored d) := rfl
  have text : anchored t = ['^'] ++ (t ++ ['$']) := rfl
  have closed : ['$'].foldlM (State.step d) s' = some
      (((State.anchored d).adding items target names).pushEdge d .atEnd) := by
    rw [List.foldlM_cons, State.step_settled (by decide) (by decide), settled]
    rfl
  have body : (((State.anchored d).adding items target names).pushEdge d .atEnd).inner.body =
      between items := by
    simp [State.pushEdge, State.continueWith, State.adding, Scope.push, Scope.body,
      Scope.lastAlternative, anyOf, between, State.anchored, State.start]
  rw [read?, text, State.foldlM_append opened, State.foldlM_append run, closed, Option.bind_some, ← body]
  rfl

/-- Between anchors, pieces without a name twice are the regex. -/
theorem read?_anchored_of_run {s' : State} {items : List Item} {target : Target} {names : List Text}
    (run : t.foldlM (State.step d) (.anchored d) = some s')
    (settled : s'.settled d = (State.anchored d).adding items target names)
    (nodup : (items.reverse.flatMap fun i => i.regex.groupNames).Nodup) :
    read? d (anchored t) = some (between items) := by
  rw [read?_anchored_eq run settled,
    (lastOfEachName_eq (between items) [] (groupNames_between items ▸ nodup) (by simp)).1]

/-- Between anchors, a text that adds pieces without a name twice is the regex of these pieces. -/
theorem Adds.read?_anchored {P : List Item → Prop} (h : Adds d t P)
    (nodup : ∀ items, P items → (items.reverse.flatMap fun i => i.regex.groupNames).Nodup) :
    ∃ items, read? d (anchored t) = some (between items) ∧ P items := by
  obtain ⟨s', items, target, names, run, settled, holds⟩ := h (.anchored d) rfl rfl
  exact ⟨items, read?_anchored_of_run run settled (nodup items holds), holds⟩

/-- Between anchors, a text that lays out fields is a regex for the texts that can be cut so. -/
theorem Lays.read?_anchored (h : Lays d t fs) (nodup : (fs.filterMap Field.name).Nodup) :
    ∃ items, read? d (anchored t) = some (between items) ∧ Layout items fs :=
  h.adds.read?_anchored fun _ layout => layout.names ▸ nodup

/-- Between anchors, a text that writes a language is a regex for the texts of that language. -/
theorem Writes.read?_anchored {firm : Bool} {L : TextLanguage} (h : Writes firm d t L) :
    ∃ r, read? d (anchored t) = some r ∧ ∀ w, r.isMatch w ↔ w ∈ L := by
  obtain ⟨items, read, layout⟩ := h.lays.read?_anchored (by simp)
  refine ⟨between items, read, fun w => ?_⟩
  obtain ⟨found, lost⟩ := search_between layout w
  rw [isMatch]
  constructor
  · intro some
    obtain ⟨o, ho⟩ := Option.isSome_iff_exists.1 some
    obtain ⟨ws, cut, rfl, -⟩ := found o ho
    obtain ⟨v, _, hv, none, rfl⟩ := List.forall₂_cons_left_iff.1 cut
    cases none
    simpa using hv
  · intro hw
    rw [Option.isSome_iff_ne_none]
    intro none
    exact lost none [w] (.cons hw .nil) (by simp)

end StepMatch.Regex
