import StepMatch.Proofs.Regex.Groups
import StepMatch.Proofs.Regex.Ways

/-!
# Texts in fields

A regex for a whole text often is a row of fields: some take what a named group remembers, others
are passed. `Lays d t fs` says that the regex text `t` writes such a row. A search with it then
cuts the text along the fields, whenever the text can be cut so, and remembers what the named ones
take.
-/

namespace StepMatch.Regex

/-- A part of a text with a language of its own, and the name under which it is remembered. -/
structure Field where
  name : Option Text
  language : TextLanguage

/-- What is remembered of a field that takes a text. -/
def Field.captures (f : Field) (w : Text) : Captures := f.name.toList.map (·, w)

/-- A text for each field. -/
def Cut (fs : List Field) (ws : List Text) : Prop := List.Forall₂ (fun f w => w ∈ f.language) fs ws

/-- What is remembered of a row of fields. -/
def cutCaptures (fs : List Field) (ws : List Text) : Captures :=
  (List.zipWith Field.captures fs ws).flatten

/-- All of the steps in order. -/
def Step.all (Rs : List Step) : Step := Rs.foldr Step.comp Step.stay

/-- A step through fields, taking a text for each. -/
def Step.Cuts (R : Step) (fs : List Field) : Prop := ∀ p q cs,
  R p q cs ↔ ∃ ws, Cut fs ws ∧ p.Reads ws.flatten q ∧ cs = cutCaptures fs ws

variable {R S : Step} {fs gs : List Field} {rs : List Regex} {d : Dialect} {t u : Text}
  {firm : Bool} {L : TextLanguage}

theorem Step.all_append (Rs Ss : List Step) :
    Step.all (Rs ++ Ss) = (Step.all Rs).comp (Step.all Ss) := by
  induction Rs with
  | nil => exact (stay_comp _).symm
  | cons R Rs ih => rw [List.cons_append, all, List.foldr_cons, ← all, ih, ← comp_assoc]; rfl

/-- Where nothing is captured in any of the steps, nothing is in all of them. -/
theorem Step.captures_of_all {Rs : List Step} (h : ∀ R ∈ Rs, ∀ p q cs, R p q cs → cs = [])
    {p q : Place} {cs : Captures} (all : Step.all Rs p q cs) : cs = [] := by
  induction Rs generalizing p cs with
  | nil => exact all.2
  | cons R Rs ih =>
    obtain ⟨own, rest⟩ := List.forall_mem_cons.1 h
    obtain ⟨m, cs₁, cs₂, first, later, rfl⟩ := all
    rw [own _ _ _ first, ih rest later, List.append_nil]

/-- What is put together from its parts one after the other is so for a row of them. -/
theorem step_concat {T : Regex → Step} (empty : T .empty = Step.stay)
    (seq : ∀ r s, T (.seq r s) = (T r).comp (T s)) (rs : List Regex) :
    T (concat rs) = Step.all (rs.map T) := by
  obtain _ | ⟨r, rs⟩ := rs
  · exact empty
  · rw [concat]
    induction rs generalizing r with
    | nil => exact (Step.comp_stay _).symm
    | cons s rs ih =>
      rw [List.foldl_cons, ih, List.map_cons, List.map_cons, List.map_cons, seq]
      exact Step.comp_assoc _ _ _

theorem spans_concat (rs : List Regex) : (concat rs).Spans = Step.all (rs.map Spans) :=
  step_concat rfl (fun _ _ => rfl) rs

theorem cut_append_iff {ws : List Text} :
    Cut (fs ++ gs) ws ↔ ∃ us vs, ws = us ++ vs ∧ Cut fs us ∧ Cut gs vs := by
  constructor
  · intro h
    induction fs generalizing ws with
    | nil => exact ⟨[], ws, rfl, .nil, h⟩
    | cons f fs ih =>
      obtain ⟨w, ws, hw, later, rfl⟩ := List.forall₂_cons_left_iff.1 h
      obtain ⟨us, vs, rfl, hu, hv⟩ := ih later
      exact ⟨w :: us, vs, rfl, .cons hw hu, hv⟩
  · rintro ⟨us, vs, rfl, hu, hv⟩
    exact List.rel_append hu hv

theorem cutCaptures_append {us vs : List Text} (h : Cut fs us) :
    cutCaptures (fs ++ gs) (us ++ vs) = cutCaptures fs us ++ cutCaptures gs vs := by
  rw [cutCaptures, List.zipWith_append h.length_eq, List.flatten_append]
  rfl

/-- The texts of the fields that have a name. -/
def namedTexts (fs : List Field) (ws : List Text) : List Text :=
  ((fs.zip ws).filter fun x => x.1.name.isSome).map Prod.snd

/-- The names of fields and their texts are what is remembered. -/
theorem cutCaptures_eq_zip {ws : List Text} (h : Cut fs ws) :
    cutCaptures fs ws = (fs.filterMap Field.name).zip (namedTexts fs ws) ∧
      (namedTexts fs ws).length = (fs.filterMap Field.name).length := by
  induction h with
  | nil => exact ⟨rfl, rfl⟩
  | @cons f w fs ws _ _ ih =>
    obtain ⟨captures, length⟩ := ih
    obtain ⟨_ | name, L⟩ := f
    · exact ⟨captures, length⟩
    · exact ⟨congrArg ((name, w) :: ·) captures, congrArg (· + 1) length⟩

theorem Step.Cuts.comp (h : R.Cuts fs) (h' : S.Cuts gs) : (R.comp S).Cuts (fs ++ gs) := by
  intro p q cs
  constructor
  · rintro ⟨m, cs₁, cs₂, first, later, rfl⟩
    obtain ⟨us, hu, pu, rfl⟩ := (h p m cs₁).1 first
    obtain ⟨vs, hv, pv, rfl⟩ := (h' m q cs₂).1 later
    exact ⟨us ++ vs, cut_append_iff.2 ⟨us, vs, rfl, hu, hv⟩,
      by rw [List.flatten_append]; exact pu.trans pv, (cutCaptures_append hu).symm⟩
  · rintro ⟨ws, hw, pw, rfl⟩
    obtain ⟨us, vs, rfl, hu, hv⟩ := cut_append_iff.1 hw
    rw [List.flatten_append] at pw
    obtain ⟨m, pu, pv⟩ := Place.reads_append_iff.1 pw
    exact ⟨m, _, _, (h p m _).2 ⟨us, hu, pu, rfl⟩, (h' m q _).2 ⟨vs, hv, pv, rfl⟩,
      cutCaptures_append hu⟩

theorem Step.cuts_stay : Step.stay.Cuts [] := by
  intro p q cs
  constructor
  · rintro ⟨rfl, rfl⟩
    exact ⟨[], .nil, .refl q, rfl⟩
  · rintro ⟨ws, hw, pw, rfl⟩
    cases hw
    exact ⟨Place.reads_nil_iff.1 pw, rfl⟩

/-- A row of local regexes without names is one field that is passed. -/
theorem cuts_passed (loc : ∀ r ∈ rs, r.isLocal) (unnamed : ∀ r ∈ rs, r.groupNames = []) :
    (Step.all (rs.map Spans)).Cuts [⟨none, (rs.map language).prod⟩] := by
  rw [← spans_concat, ← language_concat]
  have loc : (concat rs).isLocal := isLocal_concat loc
  have unnamed : (concat rs).groupNames = [] := by
    rw [groupNames_concat, List.flatMap_eq_nil_iff]
    exact unnamed
  intro p q cs
  constructor
  · intro span
    obtain ⟨w, hw, pw⟩ := (links_spans_iff loc p q).1 ⟨cs, span⟩
    exact ⟨[w], .cons hw .nil, by simpa using pw, span.captures_eq_nil unnamed⟩
  · rintro ⟨ws, cut, pw, rfl⟩
    obtain ⟨w, _, hw, none, rfl⟩ := List.forall₂_cons_left_iff.1 cut
    cases none
    obtain ⟨cs, span⟩ := (links_spans_iff loc p q).2 ⟨w, hw, by simpa using pw⟩
    obtain rfl := span.captures_eq_nil unnamed
    exact span

/-- A named group around a local regex without names is one field that is remembered. -/
theorem cuts_named {r : Regex} (loc : r.isLocal) (unnamed : r.groupNames = []) (name : Text) :
    (Step.all [(Regex.capture name r).Spans]).Cuts [⟨some name, r.language⟩] := by
  have one : Step.all [(Regex.capture name r).Spans] = (Regex.capture name r).Spans :=
    Step.comp_stay _
  rw [one]
  intro p q cs
  constructor
  · rintro ⟨inner, span, rfl⟩
    obtain ⟨w, hw, pw⟩ := (links_spans_iff loc p q).1 ⟨inner, span⟩
    refine ⟨[w], .cons hw .nil, by simpa using pw, ?_⟩
    rw [span.captures_eq_nil unnamed, pw.textTo_eq]
    rfl
  · rintro ⟨ws, cut, pw, rfl⟩
    obtain ⟨w, _, hw, none, rfl⟩ := List.forall₂_cons_left_iff.1 cut
    cases none
    have pw : p.Reads w q := by simpa using pw
    obtain ⟨inner, span⟩ := (links_spans_iff loc p q).2 ⟨w, hw, pw⟩
    refine ⟨inner, span, ?_⟩
    rw [span.captures_eq_nil unnamed, pw.textTo_eq]
    rfl

/-- Pieces, last one first, that make a row of fields. -/
structure Layout (items : List Item) (fs : List Field) : Prop where
  isRegular : ∀ i ∈ items, i.regex.isRegular
  names : items.reverse.flatMap (fun i => i.regex.groupNames) = fs.filterMap Field.name
  cuts : (Step.all (items.reverse.map fun i => i.regex.Spans)).Cuts fs

/-- Wherever it is read, the text adds pieces that make the row of fields. -/
def Lays (d : Dialect) (t : Text) (fs : List Field) : Prop :=
  ∀ s : State, s.mode = .plain → s.inner.fold = false → ∃ s' items target names,
    t.foldlM (State.step d) s = some s' ∧
      s'.settled d = s.adding items target names ∧ Layout items fs

theorem Layout.append {items more : List Item} (h : Layout items fs) (h' : Layout more gs) :
    Layout (more ++ items) (fs ++ gs) where
  isRegular i hi := (List.mem_append.1 hi).elim (h'.isRegular i) (h.isRegular i)
  names := by
    rw [List.reverse_append, List.flatMap_append, List.filterMap_append, h.names, h'.names]
  cuts := by
    rw [List.reverse_append, List.map_append, Step.all_append]
    exact h.cuts.comp h'.cuts

theorem Writes.lays (h : Writes firm d t L) : Lays d t [⟨none, L⟩] := by
  refine h.adds.mono fun items stretch => ⟨?_, ?_, ?_⟩
  · exact fun i hi => isRegular_of_isLocal (stretch.isLocal i hi)
  · rw [List.flatMap_eq_nil_iff.2 fun i hi => stretch.unnamed i (List.mem_reverse.1 hi)]
    rfl
  · have cuts := cuts_passed
      (fun r hr => by
        obtain ⟨i, hi, rfl⟩ := List.mem_map.1 hr
        exact stretch.isLocal i (List.mem_reverse.1 hi))
      (fun r hr => by
        obtain ⟨i, hi, rfl⟩ := List.mem_map.1 hr
        exact stretch.unnamed i (List.mem_reverse.1 hi))
    rw [List.map_map, List.map_map] at cuts
    have language : (items.reverse.map (language ∘ Item.regex)).prod = L := stretch.language
    rw [language] at cuts
    exact cuts

namespace Lays

theorem adds (h : Lays d t fs) : Adds d t (Layout · fs) := h

theorem nil (d : Dialect) : Lays d [] [] := Adds.nil ⟨by simp, rfl, Step.cuts_stay⟩

theorem append (h : Lays d t fs) (h' : Lays d u gs) : Lays d (t ++ u) (fs ++ gs) := by
  refine (h.adds.append h'.adds).mono fun items => ?_
  rintro ⟨first, later, layout, layout', rfl⟩
  exact layout.append layout'

end Lays

theorem Dialect.allowsInName_of_first {d : Dialect} {c : Char} (h : d.allowsInName true c) (first : Bool) :
    d.allowsInName first c := by
  cases d
  · simp only [allowsInName, Bool.or_eq_true] at h ⊢
    exact .inl (h.resolve_right (by simp))
  · exact h

/-- The name of a group, up to the bracket behind it. -/
theorem foldlM_name {name : Text} (allowed : ∀ c ∈ name, d.allowsInName true c)
    (read : Text) {s : State} (mode : s.mode = .name read) :
    name.foldlM (State.step d) s = some { s with mode := .name (read ++ name) } := by
  induction name generalizing read s with
  | nil =>
    rw [List.append_nil, ← mode]
    rfl
  | cons c name ih =>
    have hc := allowed c List.mem_cons_self
    have ne : c ≠ '>' := by
      rintro rfl
      cases d <;> cases hc
    have step : State.step d s c = some { s with mode := .name (read ++ [c]) } := by
      simp [State.step, mode, State.readName, ne, Dialect.allowsInName_of_first hc]
    rw [List.foldlM_cons, step]
    change name.foldlM _ _ = _
    rw [ih (fun c hc => allowed c (List.mem_cons_of_mem _ hc)) (read ++ [c]) rfl,
      List.append_assoc]
    rfl

/-- A named group makes one piece of what is read in it. In the plain dialect its name must be new. -/
theorem Closes.foldlM_named {Q : List Regex → List Item → Prop} (h : Closes d t Q) {name : Text}
    (ne : name ≠ []) (allowed : ∀ c ∈ name, d.allowsInName true c) {s : State}
    (plain : s.mode = .plain) (fold : s.inner.fold = false) (new : d = .plain → name ∉ s.names) :
    ∃ as items names, Q as items ∧ (namedGroup name t).foldlM (State.step d) s =
      some (s.adding [⟨.capture name (bodyOf as items), true⟩] .piece names) := by
  obtain ⟨⟨_, fold', as, items, target⟩, after, rfl, holds, run⟩ :=
    h s (.named name) (name :: s.names) plain
  refine ⟨as, items, after, holds, ?_⟩
  have opened : ['(', '?', 'P', '<'].foldlM (State.step d) s = some { s with mode := .name [] } := by
    obtain ⟨mode, inner, outer, names⟩ := s
    cases plain
    cases d <;> rfl
  have closed : State.step d { s with mode := .name name } '>' =
      some ⟨.plain, { kind := .named name, fold := false }, s.inner :: s.outer, name :: s.names⟩ := by
    have free : (name.isEmpty || d == .plain && s.names.contains name) = false := by
      cases d
      · simpa [ne] using new rfl
      · simp [ne]
    simp only [State.step, State.readName, free, State.openGroup, fold]
    rfl
  have text : namedGroup name t = ['(', '?', 'P', '<'] ++ (name ++ '>' :: (t ++ [')'])) := by
    simp [namedGroup]
  rw [text, State.foldlM_append opened, State.foldlM_append (foldlM_name allowed [] rfl),
    List.foldlM_cons]
  change State.step _ { s with mode := .name name } '>' >>= _ = _
  rw [closed]
  refine Eq.trans run ?_
  obtain ⟨mode, inner, outer, names⟩ := s
  obtain _ | ⟨a, as⟩ := as <;> obtain _ | ⟨i, _ | ⟨j, items⟩⟩ := items <;> cases d <;> rfl

/-- In the extended dialect any name will do. -/
theorem Closes.named {Q : List Regex → List Item → Prop} (h : Closes .extended t Q) {name : Text}
    (ne : name ≠ []) (allowed : ∀ c ∈ name, Dialect.extended.allowsInName true c) :
    AddsAtom .extended (namedGroup name t) fun r =>
      ∃ as items, Q as items ∧ r = .capture name (bodyOf as items) := by
  intro s plain fold
  obtain ⟨as, items, names, holds, run⟩ := h.foldlM_named ne allowed plain fold (by simp)
  exact ⟨_, names, run, as, items, holds, rfl⟩

/-- A named group around a local regex without names, as a piece. -/
theorem Layout.named {r : Regex} (loc : r.isLocal) (unnamed : r.groupNames = []) (name : Text) :
    Layout [⟨.capture name r, true⟩] [⟨some name, r.language⟩] where
  isRegular := by simpa using isRegular_of_isLocal (r := .capture name r) loc
  names := by simpa [groupNames] using unnamed
  cuts := cuts_named loc unnamed name

/-- A named group is a field that is remembered. -/
theorem WritesBody.named (h : WritesBody false .extended t L) {name : Text} (ne : name ≠ [])
    (allowed : ∀ c ∈ name, Dialect.extended.allowsInName true c) :
    Lays .extended (namedGroup name t) [⟨some name, L⟩] := by
  refine (h.addsBody.closes.named ne allowed).adds.mono fun items => ?_
  rintro ⟨_, ⟨as, inner, body, rfl⟩, rfl⟩
  obtain ⟨loc, unnamed, rfl⟩ := body.bodyOf
  exact Layout.named loc unnamed name

end StepMatch.Regex
