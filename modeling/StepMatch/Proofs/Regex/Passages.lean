import StepMatch.Proofs.Regex.Backtracking

/-!
# What is left of a text

A row with pieces that look ahead has no language of its own, because what it matches depends on what
comes after. Here it is described by what is left of the text before and after it. Some pieces take a
word of a language, others take nothing and only pass where no word of a language stands.
-/

namespace StepMatch.Regex

/-- What is left of a text before and after something in it is passed. -/
abbrev Passage := Text → Text → Prop

namespace Passage

/-- A word of the language is taken. -/
def takes (L : TextLanguage) : Passage := fun t u => ∃ w ∈ L, t = w ++ u

/-- Nothing is taken, and no word of the language may stand there. -/
def refuses (L : TextLanguage) : Passage := fun t u => u = t ∧ ∀ w ∈ L, ¬ w <+: t

/-- One passage and then the other. -/
def comp (R S : Passage) : Passage := fun t u => ∃ m, R t m ∧ S m u

/-- The step leads from a place exactly to where the passage leaves the text. -/
structure Fits (R : Passage) (S : Step) : Prop where
  sound {p q : Place} : S.Links p q → R p.rest q.rest
  complete {p : Place} {u : Text} : R p.rest u → ∃ q, q.rest = u ∧ S.Links p q

variable {R R' : Passage} {S S' : Step} {L : TextLanguage} {r : Regex}

theorem Fits.comp (h : R.Fits S) (h' : R'.Fits S') : (R.comp R').Fits (S.comp S') := by
  constructor
  · intro p q link
    obtain ⟨m, first, later⟩ := Step.links_comp.1 link
    exact ⟨m.rest, h.sound first, h'.sound later⟩
  · rintro p u ⟨m, first, later⟩
    obtain ⟨k, rfl, link⟩ := h.complete first
    obtain ⟨q, rfl, link'⟩ := h'.complete later
    exact ⟨q, rfl, Step.links_comp.2 ⟨k, link, link'⟩⟩

theorem fits_takes (loc : r.isLocal) : (takes r.language).Fits r.Spans := by
  constructor
  · intro p q link
    obtain ⟨w, hw, reads⟩ := (links_spans_iff loc p q).1 link
    exact ⟨w, hw, reads.1⟩
  · rintro p u ⟨w, hw, e⟩
    exact ⟨⟨p.offset + w.length, u⟩, rfl, (links_spans_iff loc _ _).2 ⟨w, hw, e, rfl⟩⟩

theorem fits_refuses (loc : r.isLocal) : (refuses r.language).Fits r.Spans.refusing := by
  have nowhere (p : Place) :
      (∀ j, ¬ r.Spans.Links p j) ↔ ∀ w ∈ r.language, ¬ w <+: p.rest := by
    constructor
    · rintro none w hw ⟨u, e⟩
      obtain ⟨q, -, link⟩ := (fits_takes loc).complete (p := p) ⟨w, hw, e.symm⟩
      exact none q link
    · intro none j link
      obtain ⟨w, hw, e⟩ := (fits_takes loc).sound link
      exact none w hw ⟨j.rest, e.symm⟩
  constructor
  · intro p q link
    obtain ⟨_, none, rfl, -⟩ := link
    exact ⟨rfl, (nowhere _).1 none⟩
  · rintro p _ ⟨rfl, none⟩
    exact ⟨p, rfl, [], (nowhere p).2 none, rfl, rfl⟩

end Passage

/-- Pieces, last one first, that match the words of a language, and that every search takes in
full. -/
structure Steady (items : List Item) (L : TextLanguage) : Prop extends Stretch false items L where
  steady : ∀ i ∈ items, i.regex.isSteady

/-- Pieces, last one first, that together make a passage. Nothing is named; `looks` says that one of
them looks ahead. -/
structure Walk (looks : Bool) (items : List Item) (R : Passage) : Prop where
  unnamed : ∀ i ∈ items, i.regex.groupNames = []
  looks : looks = true → ∃ i ∈ items, i.regex.isRegular = false
  pieces : ∃ Rs, List.Forall₂ IsPiece (items.reverse.map Item.regex) Rs ∧ R.Fits (Step.all Rs)

variable {items more : List Item} {L M : TextLanguage} {R S : Passage} {looks looks' : Bool}
  {t u : Text} {d : Dialect}

theorem isSteady_concat {rs : List Regex} (h : ∀ r ∈ rs, r.isSteady) : (concat rs).isSteady := by
  obtain _ | ⟨r, rs⟩ := rs
  · rfl
  · rw [concat]
    induction rs generalizing r with
    | nil => simpa using h
    | cons s rs ih =>
      refine ih (.seq r s) fun q hq => ?_
      simp only [List.mem_cons, forall_eq_or_imp] at h hq
      obtain rfl | hq := hq
      · exact Bool.and_eq_true_iff.2 ⟨h.1, h.2.1⟩
      · exact h.2.2 q hq

namespace Steady

theorem nil : Steady [] 1 := ⟨.nil, by simp⟩

theorem append (h : Steady items L) (h' : Steady more M) : Steady (more ++ items) (L * M) :=
  ⟨h.toStretch.append h'.toStretch,
    fun i hi => (List.mem_append.1 hi).elim (h'.steady i) (h.steady i)⟩

theorem single {r : Regex} (loc : r.isLocal) (unnamed : r.groupNames = []) (steady : r.isSteady) :
    Steady [⟨r, true⟩] r.language :=
  ⟨.single loc unnamed, by simpa using steady⟩

/-- What a group is made of when it is one piece. -/
theorem concat (h : Steady items L) :
    (Regex.concat (items.reverse.map Item.regex)).isLocal ∧
      (Regex.concat (items.reverse.map Item.regex)).groupNames = [] ∧
      (Regex.concat (items.reverse.map Item.regex)).language = L ∧
      (Regex.concat (items.reverse.map Item.regex)).isSteady := by
  obtain ⟨loc, unnamed, language⟩ :=
    h.lastAlternative (g := ⟨.plain, false, [], items, .nothing⟩) rfl
  refine ⟨loc, unnamed, language, isSteady_concat fun r hr => ?_⟩
  obtain ⟨i, hi, rfl⟩ := List.mem_map.1 hr
  exact h.steady i (List.mem_reverse.1 hi)

theorem walk (h : Steady items L) : Walk false items (.takes L) where
  unnamed := h.unnamed
  looks e := by cases e
  pieces := by
    refine ⟨(items.reverse.map Item.regex).map Spans, ?_, ?_⟩
    · rw [List.forall₂_map_right_iff, List.forall₂_same]
      intro r hr
      obtain ⟨i, hi, rfl⟩ := List.mem_map.1 hr
      have hi := List.mem_reverse.1 hi
      exact .taken (isRegular_of_isLocal (h.isLocal i hi)) (h.steady i hi)
    · obtain ⟨loc, -, language, -⟩ := h.concat
      rw [← language, ← spans_concat]
      exact Passage.fits_takes loc

end Steady

namespace Walk

theorem append (h : Walk looks items R) (h' : Walk looks' more S) :
    Walk (looks || looks') (more ++ items) (R.comp S) where
  unnamed i hi := (List.mem_append.1 hi).elim (h'.unnamed i) (h.unnamed i)
  looks e := by
    rcases Bool.or_eq_true_iff.1 e with e | e
    · obtain ⟨i, hi, own⟩ := h.looks e
      exact ⟨i, List.mem_append_right _ hi, own⟩
    · obtain ⟨i, hi, own⟩ := h'.looks e
      exact ⟨i, List.mem_append_left _ hi, own⟩
  pieces := by
    obtain ⟨Rs, pieces, fits⟩ := h.pieces
    obtain ⟨Ss, pieces', fits'⟩ := h'.pieces
    refine ⟨Rs ++ Ss, ?_, ?_⟩
    · rw [List.reverse_append, List.map_append]
      exact List.rel_append pieces pieces'
    · rw [Step.all_append]
      exact fits.comp fits'

theorem refusal (h : Steady items L) :
    Walk true [⟨.ahead false (concat (items.reverse.map Item.regex)), false⟩] (.refuses L) := by
  obtain ⟨loc, unnamed, rfl, -⟩ := h.concat
  refine ⟨by simpa [groupNames] using unnamed, fun _ => by simp [isRegular], ?_⟩
  refine ⟨[_], .cons (.refused (isRegular_of_isLocal loc)) .nil, ?_⟩
  have one (S : Step) : Step.all [S] = S := Step.comp_stay S
  rw [one]
  exact Passage.fits_refuses loc

end Walk

/-- Wherever it is read, the text adds pieces for the words of a language that every search takes in
full. -/
def WritesSteadily (d : Dialect) (t : Text) (L : TextLanguage) : Prop := Adds d t (Steady · L)

namespace WritesSteadily

theorem adds (h : WritesSteadily d t L) : Adds d t (Steady · L) := h

theorem nil (d : Dialect) : WritesSteadily d [] 1 := Adds.nil .nil

theorem append (h : WritesSteadily d t L) (h' : WritesSteadily d u M) :
    WritesSteadily d (t ++ u) (L * M) := by
  refine (h.adds.append h'.adds).mono fun items => ?_
  rintro ⟨first, later, steady, steady', rfl⟩
  exact steady.append steady'

/-- A group without a name. -/
theorem group (h : WritesSteadily d t L) : WritesSteadily d ('(' :: t ++ [')']) L := by
  refine h.adds.group.mono fun items => ?_
  rintro ⟨inner, steady, rfl⟩
  obtain ⟨loc, unnamed, rfl, again⟩ := steady.concat
  exact .single loc unnamed again

/-- One character of a set. -/
theorem ofSet {set : CharSet} (h : AddsAtom d t (· = .chars false set)) :
    WritesSteadily d t (Regex.ofSet set) := by
  refine h.adds.mono fun items => ?_
  rintro ⟨_, rfl, rfl⟩
  exact .single (r := .chars false set) rfl rfl rfl

/-- One character of a set again and again, at least once if `low` is one. -/
theorem repeated {set : CharSet} (h : AddsAtom d t (· = .chars false set)) {q : Char} {low : Nat}
    (le : low ≤ 1)
    (reads : ∀ s : State, s.mode = .plain → State.step d s q = s.quantify low none) :
    WritesSteadily d (t ++ [q]) (repeats low none (Regex.ofSet set)) := by
  refine (h.quantified reads).mono fun items => ?_
  rintro ⟨_, rfl, rfl⟩
  exact .single (r := .repeated true low none (.chars false set)) rfl rfl (by simp [isSteady, nullable, le])

theorem escape (d : Dialect) : ∀ w : Text, WritesSteadily d (escape w) {w}
  | [] => nil d
  | c :: w => by
    have first := ofSet (addsAtom_escapeChar d c)
    rw [ofSet_single] at first
    have all := first.append (escape d w)
    rw [singleton_mul_singleton] at all
    exact all

theorem blanks (d : Dialect) : WritesSteadily d blanks spaces :=
  repeats_blank ▸ repeated (addsAtom_blank d) (Nat.le_refl 1) (step_plus d)

theorem ink (d : Dialect) : WritesSteadily d ['\\', 'S', '+'] inked :=
  repeats_ink ▸ repeated (addsAtom_ink d) (Nat.le_refl 1) (step_plus d)

theorem anyText (d : Dialect) : WritesSteadily d ['.', '*'] line :=
  repeats_inLine ▸ repeated (addsAtom_dot d) (Nat.zero_le 1) (step_star d)

theorem walks (h : WritesSteadily d t L) : Adds d t (Walk false · (.takes L)) :=
  h.adds.mono fun _ => Steady.walk

/-- A group that looks ahead for what may not stand there. -/
theorem refusal (h : WritesSteadily .extended t L) :
    Adds .extended ('(' :: '?' :: '!' :: t ++ [')']) (Walk true · (.refuses L)) := by
  refine h.adds.refusal.mono fun items => ?_
  rintro ⟨inner, steady, rfl⟩
  exact .refusal steady

end WritesSteadily

theorem Adds.walks (h : Adds d t (Walk looks · R)) (h' : Adds d u (Walk looks' · S)) :
    Adds d (t ++ u) (Walk (looks || looks') · (R.comp S)) := by
  refine (h.append h').mono fun items => ?_
  rintro ⟨first, later, walk, walk', rfl⟩
  exact walk.append walk'

/-- Between anchors, a text that makes a passage and looks ahead somewhere is a regex for the texts of
which the passage leaves nothing. -/
theorem Adds.isMatch_anchored (h : Adds d t (Walk true · R)) :
    ∃ r, read? d (anchored t) = some r ∧ ∀ w, r.isMatch w ↔ R w [] := by
  obtain ⟨items, read, walk⟩ := h.read?_anchored fun items walk => by
    rw [List.flatMap_eq_nil_iff.2 fun i hi => walk.unnamed i (List.mem_reverse.1 hi)]
    exact List.nodup_nil
  obtain ⟨Rs, pieces, fits⟩ := walk.pieces
  refine ⟨between items, read, fun w => ?_⟩
  rw [isMatch, isSome_search_between pieces (walk.looks rfl)]
  constructor
  · exact fun link => fits.sound link
  · intro left
    obtain ⟨⟨offset, rest⟩, rfl, link⟩ := fits.complete (p := ⟨0, w⟩) left
    obtain ⟨_, reads⟩ := (advances_all pieces).reads link
    obtain rfl : offset = w.length := by simpa using reads.length_add.symm
    exact link

end StepMatch.Regex
