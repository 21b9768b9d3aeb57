import StepMatch.Proofs.Regex.Anchored

/-!
# Regex text that can be put together

Regex texts are joined without being read. That goes well for texts that read the same wherever they
stand: each closes the groups that it opens, begins no alternative outside of them, and applies no
quantifier to what stands in front of it. Such a text adds a row of pieces, always the same ones
(`IsSource`), and two of them, one after the other, add the pieces of both.
-/

namespace StepMatch.Regex

/-- Whether a regex may be repeated: it is no edge of the text, does not merely look ahead, and is not
empty. -/
def isRepeatable : Regex → Bool
  | .empty | .atStart | .atEnd | .ahead .. => false
  | .chars .. | .seq .. | .alt .. | .repeated .. | .capture .. | .atomic _ => true

/-- Whether everything in a regex that is repeated may be. -/
def repeatsSoundly : Regex → Bool
  | .empty | .chars .. | .atStart | .atEnd => true
  | .seq r s | .alt r s => r.repeatsSoundly && s.repeatsSoundly
  | .repeated _ _ _ r => r.isRepeatable && r.repeatsSoundly
  | .capture _ r | .ahead _ r | .atomic r => r.repeatsSoundly

/-- A regex that names no groups and repeats only what may be repeated. -/
structure IsSound (r : Regex) : Prop where
  unnamed : r.groupNames = []
  repeats : r.repeatsSoundly = true

/-- A row of pieces, last one first, that names nothing and repeats only what may be repeated. It is not
empty, and as a whole it may be repeated itself. -/
structure IsRow (items : List Item) : Prop where
  sound : ∀ i ∈ items, i.regex.IsSound
  ne : items ≠ []
  lone : ∀ i, items = [i] → i.repeatable = true ∧ i.regex.isRepeatable = true

/-- A regex text that adds the same row of pieces wherever it is read, and nothing else: no group is
left open or closed that has been open before, and outside of groups no alternative begins. -/
def IsSource (t : Text) (items : List Item) : Prop := Adds .extended t (· = items) ∧ IsRow items

/-- A regex text that adds the same piece wherever it is read, and that a quantifier may follow. -/
def IsAtom (t : Text) (r : Regex) : Prop :=
  AddsAtom .extended t (· = r) ∧ r.IsSound ∧ r.isRepeatable = true

/-- A regex text that, between brackets, adds the same alternatives and a row of pieces as the last
one. -/
def IsBody (t : Text) (as : List Regex) (items : List Item) : Prop :=
  AddsBody .extended t (fun as' items' => as' = as ∧ items' = items) ∧
    (∀ a ∈ as, a.IsSound) ∧ IsRow items

variable {t u : Text} {items more : List Item} {as bs : List Regex} {r s : Regex}

namespace IsSound

theorem ahead (h : r.IsSound) (wanted : Bool) : (Regex.ahead wanted r).IsSound :=
  ⟨h.unnamed, h.repeats⟩

theorem repeated (h : r.IsSound) (repeatable : r.isRepeatable = true) (greedy : Bool) (low : Nat)
    (high : Option Nat) : (Regex.repeated greedy low high r).IsSound :=
  ⟨h.unnamed, by simp [repeatsSoundly, repeatable, h.repeats]⟩

theorem concat {rs : List Regex} (h : ∀ r ∈ rs, r.IsSound) : (concat rs).IsSound := by
  refine ⟨?_, ?_⟩
  · rw [groupNames_concat, List.flatMap_eq_nil_iff]
    exact fun r hr => (h r hr).unnamed
  · obtain _ | ⟨r, rs⟩ := rs
    · rfl
    · rw [Regex.concat]
      obtain ⟨first, rest⟩ := List.forall_mem_cons.1 h
      have own := first.repeats
      clear h first
      induction rs generalizing r with
      | nil => exact own
      | cons s rs ih =>
        obtain ⟨next, rest⟩ := List.forall_mem_cons.1 rest
        exact ih (.seq r s) rest (Bool.and_eq_true_iff.2 ⟨own, next.repeats⟩)

theorem anyOf {rs : List Regex} (h : ∀ r ∈ rs, r.IsSound) : (anyOf rs).IsSound := by
  refine ⟨?_, ?_⟩
  · rw [groupNames_anyOf, List.flatMap_eq_nil_iff]
    exact fun r hr => (h r hr).unnamed
  · induction rs with
    | nil => rfl
    | cons r rs ih =>
      obtain ⟨own, rest⟩ := List.forall_mem_cons.1 h
      obtain _ | ⟨s, rs⟩ := rs
      · exact own.repeats
      · exact Bool.and_eq_true_iff.2 ⟨own.repeats, ih rest⟩

end IsSound

/-- Several regexes one after the other may be repeated. -/
theorem isRepeatable_concat (r s : Regex) (rs : List Regex) :
    (concat (r :: s :: rs)).isRepeatable = true := by
  rw [concat, List.foldl_cons]
  have some : (Regex.seq r s).isRepeatable = true := rfl
  revert some
  generalize Regex.seq r s = q
  induction rs generalizing q with
  | nil => exact id
  | cons s rs ih => exact fun _ => ih (.seq q s) rfl

namespace IsRow

/-- Two rows make one, the second in front as the last one comes first. -/
theorem append (h : IsRow items) (h' : IsRow more) : IsRow (more ++ items) where
  sound i hi := (List.mem_append.1 hi).elim (h'.sound i) (h.sound i)
  ne := List.append_ne_nil_of_left_ne_nil h'.ne items
  lone i e := by
    obtain _ | ⟨j, more⟩ := more
    · exact absurd rfl h'.ne
    · exact absurd (List.append_eq_nil_iff.1 (List.cons.inj e).2).2 h.ne

/-- A single piece. -/
theorem single (sound : r.IsSound) (repeatable : r.isRepeatable = true) : IsRow [⟨r, true⟩] where
  sound := by simpa using sound
  ne := List.cons_ne_nil _ _
  lone := by
    rintro _ ⟨⟩
    exact ⟨rfl, repeatable⟩

theorem isSound_concat (h : IsRow items) : (concat (items.reverse.map Item.regex)).IsSound := by
  refine .concat fun r hr => ?_
  obtain ⟨i, hi, rfl⟩ := List.mem_map.1 hr
  exact h.sound i (List.mem_reverse.1 hi)

theorem isRepeatable_concat (h : IsRow items) :
    (concat (items.reverse.map Item.regex)).isRepeatable = true := by
  cases e : items.reverse with
  | nil => exact absurd (List.reverse_eq_nil_iff.1 e) h.ne
  | cons i rest =>
    obtain _ | ⟨j, rest⟩ := rest
    · exact (h.lone i (by simpa using List.reverse_eq_cons_iff.1 e)).2
    · exact Regex.isRepeatable_concat _ _ _

/-- What alternatives with a row as the last one stand for. -/
theorem isSound_bodyOf (h : IsRow items) (each : ∀ a ∈ as, a.IsSound) :
    (bodyOf as items).IsSound ∧ (bodyOf as items).isRepeatable = true := by
  refine ⟨.anyOf fun r hr => ?_, ?_⟩
  · obtain rfl | hr := List.mem_cons.1 (List.mem_reverse.1 hr)
    · exact h.isSound_concat
    · exact each r hr
  · rw [bodyOf, List.reverse_cons]
    obtain _ | ⟨a, as⟩ := as.reverse
    · exact h.isRepeatable_concat
    · obtain _ | ⟨b, as⟩ := as <;> rfl

end IsRow

namespace IsAtom

/-- Literal characters and sets of characters. -/
theorem chars {set : CharSet} (h : AddsAtom .extended t (· = .chars false set)) :
    IsAtom t (.chars false set) := ⟨h, ⟨rfl, rfl⟩, rfl⟩

theorem source (h : IsAtom t r) : IsSource t [⟨r, true⟩] := by
  refine ⟨h.1.adds.mono fun items => ?_, .single h.2.1 h.2.2⟩
  rintro ⟨_, rfl, rfl⟩
  rfl

/-- A quantifier after a piece. -/
theorem quantified (h : IsAtom t r) {q : Char} {low : Nat} {high : Option Nat}
    (reads : ∀ s : State, s.mode = .plain → State.step .extended s q = s.quantify low high) :
    IsSource (t ++ [q]) [⟨.repeated true low high r, true⟩] := by
  refine ⟨(h.1.quantified reads).mono fun items => ?_, .single (h.2.1.repeated h.2.2 _ _ _) rfl⟩
  rintro ⟨_, rfl, rfl⟩
  rfl

theorem optional (h : IsAtom t r) : IsSource (t ++ ['?']) [⟨.repeated true 0 (some 1) r, true⟩] :=
  h.quantified (step_question .extended)

end IsAtom

namespace IsSource

/-- One text after the other adds the pieces of both. -/
theorem append (h : IsSource t items) (h' : IsSource u more) : IsSource (t ++ u) (more ++ items) := by
  refine ⟨(h.1.append h'.1).mono fun both => ?_, h.2.append h'.2⟩
  rintro ⟨_, _, rfl, rfl, rfl⟩
  rfl

theorem body (h : IsSource t items) : IsBody t [] items := by
  refine ⟨h.1.body.mono fun as items' => ?_, by simp, h.2⟩
  rintro ⟨rfl, rfl⟩
  exact ⟨rfl, rfl⟩

/-- A group that looks ahead for what may not come, and then takes something. -/
theorem refusal (h : IsSource t items) (h' : IsSource u more) :
    ∃ row, IsSource ('(' :: '?' :: '!' :: t ++ [')'] ++ u) row := by
  refine ⟨more ++ [⟨.ahead false (Regex.concat (items.reverse.map Item.regex)), false⟩],
    (h.1.refusal.append h'.1).mono fun both => ?_, ?_, ?_, ?_⟩
  · rintro ⟨_, _, ⟨_, rfl, rfl⟩, rfl, rfl⟩
    rfl
  · intro i hi
    obtain hi | hi := List.mem_append.1 hi
    · exact h'.2.sound i hi
    · obtain rfl := List.mem_singleton.1 hi
      exact h.2.isSound_concat.ahead false
  · simp
  · intro i e
    obtain _ | ⟨j, more⟩ := more
    · exact absurd rfl h'.2.ne
    · simp at e

/-- The text by itself is a regex, the row of its pieces. -/
theorem read?_eq (h : IsSource t items) :
    read? .extended t = some (Regex.concat (items.reverse.map Item.regex)) := by
  obtain ⟨s', items', target, names, run, settled, rfl⟩ := h.1 .start rfl rfl
  have unnamed := h.2.isSound_concat.unnamed
  rw [read?, run, Option.bind_some, State.finish_settled, settled]
  simp only [State.adding, State.start, State.finish, List.append_nil, Option.bind_some,
    List.isEmpty_nil, if_true, Scope.body, Scope.lastAlternative, List.reverse_singleton, Regex.anyOf]
  rw [(lastOfEachName_eq _ [] (by rw [unnamed]; exact .nil) (by simp)).1]

end IsSource

namespace IsBody

/-- Alternatives with a bar between them. -/
theorem bar (h : IsBody t as items) (h' : IsBody u bs more) :
    IsBody (t ++ '|' :: u) (bs ++ concat (items.reverse.map Item.regex) :: as) more := by
  refine ⟨(h.1.bar h'.1).mono fun both last => ?_, ?_, h'.2.2⟩
  · rintro ⟨_, _, _, ⟨rfl, rfl⟩, ⟨rfl, rfl⟩, rfl⟩
    exact ⟨rfl, rfl⟩
  · simp only [List.mem_append, List.mem_cons]
    rintro a (ha | rfl | ha)
    · exact h'.2.1 a ha
    · exact h.2.2.isSound_concat
    · exact h.2.1 a ha

/-- A group without a name. -/
theorem group (h : IsBody t as items) : IsAtom ('(' :: t ++ [')']) (bodyOf as items) := by
  refine ⟨h.1.group.mono fun r => ?_, h.2.2.isSound_bodyOf h.2.1⟩
  rintro ⟨_, _, ⟨rfl, rfl⟩, rfl⟩
  rfl

/-- A group that only keeps pieces together. -/
theorem grouped (h : IsBody t as items) : IsAtom (Regex.grouped t) (bodyOf as items) := by
  refine ⟨(h.1.closes.grouped ?_).mono fun r => ?_, h.2.2.isSound_bodyOf h.2.1⟩
  · rintro _ ⟨-, rfl⟩
    exact ⟨h.2.2.ne, fun i e => (h.2.2.lone i e).1⟩
  · rintro ⟨_, _, ⟨rfl, rfl⟩, rfl⟩
    rfl

end IsBody

/-- A text that stands for a row of regexes, one after the other, wherever it is put: by itself it is the
regex of the row, and in other text it adds just these pieces. -/
structure WritesRow (t : Text) (rs : List Regex) : Prop where
  source : ∃ items, IsSource t items ∧ items.reverse.map Item.regex = rs
  read : read? .extended t = some (concat rs)

theorem IsSource.writesRow (h : IsSource t items) : WritesRow t (items.reverse.map Item.regex) :=
  ⟨⟨items, h, rfl⟩, h.read?_eq⟩

/-- One text after the other stands for both rows, one after the other. -/
theorem WritesRow.append {rs ss : List Regex} (h : WritesRow t rs) (h' : WritesRow u ss) :
    WritesRow (t ++ u) (rs ++ ss) := by
  obtain ⟨items, source, rfl⟩ := h.source
  obtain ⟨more, source', rfl⟩ := h'.source
  rw [← List.map_append, ← List.reverse_append]
  exact (source.append source').writesRow

end StepMatch.Regex
