import StepMatch.Proofs.Regex.Anchored

/-!
# What a search may have done

A regex that looks ahead or fixes a choice matches less than its stretches, and how much less depends on
the text around. But whatever a search finds, in either discipline and for any regex, it came there by a
trace: the pieces one after the other, with a look ahead taking nothing. That is enough to know what the
named groups can have taken.
-/

namespace StepMatch.Regex

/-- The stretches that a search may pass, with what the named groups take. A look ahead stays where it is,
and may remember what it saw there. -/
def Traces : Regex → Step
  | .empty => Step.stay
  | .chars fold s => (Regex.chars fold s).Spans
  | .atStart => Regex.atStart.Spans
  | .atEnd => Regex.atEnd.Spans
  | .seq r s => r.Traces.comp s.Traces
  | .alt r s => r.Traces.union s.Traces
  | .repeated _ low high r => fun p q cs =>
    ∃ n, low ≤ n ∧ (∀ h, high = some h → n ≤ max low h) ∧ r.Traces.power n p q cs
  | .capture name r => fun p q cs =>
    ∃ inner, r.Traces p q inner ∧ cs = inner ++ [(name, p.textTo q)]
  | .ahead _ r => fun p q cs => q = p ∧ (cs = [] ∨ ∃ m, r.Traces p m cs)
  | .atomic r => r.Traces

/-- Without a look ahead or a fixed choice, traces are the stretches that are matched. -/
theorem traces_eq_spans {r : Regex} (h : r.isRegular) : r.Traces = r.Spans := by
  induction r with
  | seq r s ihr ihs | alt r s ihr ihs =>
    rw [isRegular, Bool.and_eq_true] at h
    rw [Traces, Spans, ihr h.1, ihs h.2]
  | repeated _ _ _ r ih | capture _ r ih =>
    rw [isRegular] at h
    rw [Traces, Spans, ih h]
  | empty | chars | atStart | atEnd => rfl
  | ahead | atomic => simp [isRegular] at h

/-- Without named groups nothing is remembered. -/
theorem Traces.captures_eq_nil {r : Regex} (h : r.groupNames = []) {p q : Place} {cs : Captures}
    (trace : r.Traces p q cs) : cs = [] := by
  induction r generalizing p q cs with
  | empty => exact trace.2
  | chars | atStart | atEnd => exact Spans.captures_eq_nil h trace
  | seq r s ihr ihs =>
    rw [groupNames, List.append_eq_nil_iff] at h
    obtain ⟨m, cs₁, cs₂, first, later, rfl⟩ := trace
    rw [ihr h.1 first, ihs h.2 later, List.append_nil]
  | alt r s ihr ihs =>
    rw [groupNames, List.append_eq_nil_iff] at h
    exact trace.elim (ihr h.1) (ihs h.2)
  | repeated _ _ _ r ih =>
    obtain ⟨n, -, -, power⟩ := trace
    exact Step.captures_of_power (fun p q cs => ih h) power
  | capture name r => simp [groupNames] at h
  | ahead _ r ih =>
    obtain stay | ⟨_, inner⟩ := trace.2
    · exact stay
    · exact ih h inner
  | atomic r ih => exact ih h trace

theorem traces_concat (rs : List Regex) : (concat rs).Traces = Step.all (rs.map Traces) :=
  step_concat rfl (fun _ _ => rfl) rs

/-- Every way through a part of a search follows a stretch. -/
def Sound (f : Path → List Path) (R : Step) : Prop :=
  ∀ ⦃p q : Path⦄, q ∈ f p → ∃ cs, R p.place q.place cs ∧ q.captures = p.captures ++ cs

/-- Where a way goes on, it has the place and the memory that it had. -/
def Resumes (enter? : Path → Option Path) : Prop :=
  ∀ ⦃p p' : Path⦄, enter? p = some p' → p'.toOutcome = p.toOutcome

theorem resumes_some : Resumes some := by
  rintro p _ ⟨⟩
  rfl

theorem resumes_passFork? (a : Address) : Resumes (Path.passFork? a) := by
  intro p p' h
  rw [Path.passFork?] at h
  split at h
  · cases h
  · cases h
    rfl

theorem resumes_begin? (a : Address) : Resumes (Path.begin? a) := by
  intro p p' h
  rw [Path.begin?] at h
  split at h
  · cases h
  · cases h
    rfl

variable {R S : Step} {f g : Path → List Path} {body : Nat → Path → List Path} {p q : Path}
  {greedy : Bool} {enter? : Path → Option Path}

namespace Sound

theorem stay : Sound (fun p => [p]) Step.stay := by
  intro p q h
  obtain rfl := List.mem_singleton.1 h
  exact ⟨[], ⟨rfl, rfl⟩, (List.append_nil _).symm⟩

theorem mono (h : Sound f R) (sub : ∀ p q cs, R p q cs → S p q cs) : Sound f S := fun p q hq => by
  obtain ⟨cs, stretch, memory⟩ := h hq
  exact ⟨cs, sub _ _ _ stretch, memory⟩

/-- A way that goes on with its place and memory makes no difference. -/
theorem resumed (h : Sound f R) {p p' : Path} (same : p'.toOutcome = p.toOutcome) (hq : q ∈ f p') :
    ∃ cs, R p.place q.place cs ∧ q.captures = p.captures ++ cs := by
  obtain ⟨place, captures⟩ := Outcome.mk.inj same
  rw [← place, ← captures]
  exact h hq

theorem comp (hf : Sound f R) (hg : Sound g S) : Sound (fun p => follow (f p) g) (R.comp S) := by
  intro p q hq
  obtain ⟨m, hm, hq⟩ := mem_of_mem_follow hq
  obtain ⟨cs, first, memory⟩ := hf hm
  obtain ⟨cs', later, memory'⟩ := hg hq
  exact ⟨cs ++ cs', ⟨m.place, cs, cs', first, later, rfl⟩, by
    rw [memory', memory, List.append_assoc]⟩

theorem union (hf : Sound f R) (hg : Sound g S) :
    Sound (fun p => addAll (f p) (g p)) (R.union S) := by
  intro p q hq
  obtain hq | hq := mem_of_mem_addAll hq
  · obtain ⟨cs, stretch, memory⟩ := hf hq
    exact ⟨cs, .inl stretch, memory⟩
  · obtain ⟨cs, stretch, memory⟩ := hg hq
    exact ⟨cs, .inr stretch, memory⟩

/-- At most `n` times a piece. -/
theorem upTo {fork? : Nat → Path → Option Path} (forks : ∀ n, Resumes (fork? n))
    (hb : ∀ copy, Sound (body copy) R) (greedy : Bool) :
    ∀ n, Sound (Regex.upTo greedy fork? body n) (R.atMost n)
  | 0 => stay
  | n + 1 => by
    intro p q hq
    rw [Regex.upTo] at hq
    cases passed : fork? n p with
    | none => simp [passed] at hq
    | some p' =>
      simp only [passed] at hq
      have again := (hb n).comp (upTo forks hb greedy n)
      have either : q ∈ addAll (follow (body n p') (Regex.upTo greedy fork? body n)) [p'] ∨
          q ∈ addAll [p'] (follow (body n p') (Regex.upTo greedy fork? body n)) := by
        rw [prefer] at hq
        split at hq
        · exact .inl hq
        · exact .inr hq
      obtain either | either := either
      · exact (again.union stay).resumed (forks n passed) either
      · exact ((stay.union again).mono fun _ _ _ => Or.symm).resumed (forks n passed) either

/-- Exactly `n` times a piece, and then something else. -/
theorem times (hb : ∀ copy, Sound (body copy) R) (hl : Sound g S) :
    ∀ n, Sound (Regex.times body g n) ((R.power n).comp S)
  | 0 => by
    rw [Step.power, Step.stay_comp]
    exact hl
  | n + 1 => by
    rw [Step.power, Step.comp_assoc]
    exact (hb n).comp (times hb hl n)

/-- What a loop adds can be reached by going round. -/
theorem loopFrom (entered : Resumes enter?) (hf : Sound f R) {fuel : Nat} {found : List Path}
    (hq : q ∈ Regex.loopFrom greedy enter? f fuel found p) :
    q ∈ found ∨ ∃ cs, R.star p.place q.place cs ∧ q.captures = p.captures ++ cs := by
  induction fuel generalizing p q found with
  | zero => exact .inl hq
  | succ fuel ih =>
    have round : ∀ {ps : List Path} {found : List Path},
        q ∈ ps.foldl (Regex.loopFrom greedy enter? f fuel) found →
        q ∈ found ∨ ∃ m ∈ ps, ∃ cs, R.star m.place q.place cs ∧ q.captures = m.captures ++ cs := by
      intro ps
      induction ps with
      | nil => exact fun hq => .inl hq
      | cons m ps inner =>
        intro found hq
        obtain hq | ⟨m', hm', reached⟩ := inner hq
        · exact (ih hq).imp_right fun reached => ⟨m, List.mem_cons_self, reached⟩
        · exact .inr ⟨m', List.mem_cons_of_mem m hm', reached⟩
    rw [Regex.loopFrom] at hq
    cases passed : enter? p with
    | none => exact .inl (by simpa [passed] using hq)
    | some p' =>
      obtain ⟨place, captures⟩ := Outcome.mk.inj (entered passed)
      have here : ∃ cs, R.star p.place p'.place cs ∧ p'.captures = p.captures ++ cs :=
        ⟨[], ⟨0, place, rfl⟩, by simp [captures]⟩
      have onward : ∀ {found : List Path},
          q ∈ (f p').foldl (Regex.loopFrom greedy enter? f fuel) found →
          q ∈ found ∨ ∃ cs, R.star p.place q.place cs ∧ q.captures = p.captures ++ cs := by
        intro found hq
        refine (round hq).imp_right ?_
        rintro ⟨m, hm, cs', ⟨n, rounds⟩, memory'⟩
        obtain ⟨cs, first, memory⟩ := hf.resumed (entered passed) hm
        exact ⟨cs ++ cs', ⟨n + 1, m.place, cs, cs', first, rounds, rfl⟩, by
          rw [memory', memory, List.append_assoc]⟩
      simp only [passed] at hq
      split at hq
      · exact .inl hq
      · split at hq
        · obtain hq | rfl := mem_of_mem_add hq
          · exact onward hq
          · exact .inr here
        · obtain hq | reached := onward hq
          · obtain hq | rfl := mem_of_mem_add hq
            · exact .inl hq
            · exact .inr here
          · exact .inr reached

theorem loop (entered : Resumes enter?) (hf : Sound f R) (greedy : Bool) :
    Sound (Regex.loop greedy enter? f) R.star := fun _ _ hq =>
  (hf.loopFrom entered hq).resolve_left List.not_mem_nil

/-- At least `low` times a piece in the regular discipline. -/
theorem atLeastRegular (hb : ∀ copy, Sound (body copy) R) (greedy : Bool) (a : Address)
    (nullable : Bool) (low : Nat) : Sound (Regex.atLeastRegular greedy a nullable body low)
      fun p q cs => ∃ n, low ≤ n ∧ R.power n p q cs := by
  have any : Sound (Regex.loop greedy (Path.passFork? a) (body 0)) R.star :=
    loop (resumes_passFork? a) (hb 0) greedy
  cases low with
  | zero =>
    intro p q hq
    rw [Regex.atLeastRegular] at hq
    split at hq
    · have once := upTo (fun _ => resumes_passFork? (0 :: a)) (fun _ => times hb any 1) greedy 1
      obtain ⟨cs, stretch, memory⟩ := once hq
      refine ⟨cs, ?_, memory⟩
      obtain ⟨_ | _ | k, le, stretch⟩ := Step.atMost_iff.1 stretch
      · exact ⟨0, Nat.zero_le 0, stretch⟩
      · rw [Step.power_one, Step.comp_star_iff] at stretch
        exact stretch.imp fun n => And.imp_left fun _ => Nat.zero_le n
      · omega
    · obtain ⟨cs, ⟨n, stretch⟩, memory⟩ := any hq
      exact ⟨cs, ⟨n, Nat.zero_le n, stretch⟩, memory⟩
  | succ low => exact (times hb any (low + 1)).mono fun _ _ _ => Step.comp_star_iff.1

/-- At least `low` times a piece in the backtracking discipline. -/
theorem atLeastBacktracking (hf : Sound f R) (greedy : Bool) (a : Address) (nullable : Bool)
    (low : Nat) : Sound (Regex.atLeastBacktracking greedy a nullable f low)
      fun p q cs => ∃ n, low ≤ n ∧ R.power n p q cs := by
  have entered : Resumes (if nullable then Path.begin? a else some) := by
    split
    · exact resumes_begin? a
    · exact resumes_some
  have any := loop entered hf greedy
  cases low with
  | zero =>
    intro p q hq
    have same : { p with begun := p.begun.filter (· != a) }.toOutcome = p.toOutcome := rfl
    obtain ⟨cs, ⟨n, stretch⟩, memory⟩ := any.resumed same hq
    exact ⟨cs, ⟨n, Nat.zero_le n, stretch⟩, memory⟩
  | succ low =>
    have again : ∀ _ : Nat, Sound (fun p => if p.begun.contains a then [] else f p) R := by
      intro _ p q hq
      dsimp only at hq
      split at hq
      · cases hq
      · exact hf hq
    have together : R.comp ((R.power low).comp R.star) = (R.power (low + 1)).comp R.star :=
      (Step.comp_assoc R (R.power low) R.star).symm
    have all := hf.comp (times again any low)
    rw [together] at all
    exact all.mono fun _ _ _ => Step.comp_star_iff.1

theorem unbounded {greedy : Bool} {low : Nat} {r : Regex}
    (h : Sound f fun p q cs => ∃ n, low ≤ n ∧ r.Traces.power n p q cs) :
    Sound f (Regex.repeated greedy low none r).Traces := h.mono fun p q cs => by
  rintro ⟨n, ge, power⟩
  exact ⟨n, ge, by simp, power⟩

theorem between {greedy : Bool} {low high : Nat} {r : Regex}
    (hb : ∀ copy, Sound (body copy) r.Traces) (hl : Sound g (r.Traces.atMost (high - low))) :
    Sound (Regex.times body g low) (Regex.repeated greedy low (some high) r).Traces := by
  have all := times hb hl low
  rw [Step.comp_atMost] at all
  refine all.mono fun p q cs => ?_
  rintro ⟨n, ge, le, power⟩
  refine ⟨n, ge, ?_, power⟩
  rintro _ ⟨⟩
  omega

/-- What is forgotten at the end of a repetition makes no difference. -/
theorem forget (hf : Sound f R) (inLoop : Bool) :
    Sound (fun p => if inLoop then f p else addAll [] ((f p).map Path.untracked)) R := by
  intro p q hq
  dsimp only at hq
  split at hq
  · exact hf hq
  · obtain hq | hq := mem_of_mem_addAll hq
    · cases hq
    · obtain ⟨m, hm, rfl⟩ := List.mem_map.1 hq
      exact hf (q := m) hm

theorem ofRegular {r : Regex} (h : r.isRegular) (inLoop : Bool) (a : Address) :
    Sound (ways .regular inLoop a r) r.Spans := fun p q hq => by
  obtain ⟨_, explores⟩ := explored_ways h inLoop a
  exact explores.sound hq

end Sound

/-- The ways through a regex follow its traces, in either discipline. -/
theorem sound_ways (d : Discipline) (inLoop : Bool) (a : Address) (r : Regex) :
    Sound (ways d inLoop a r) r.Traces := by
  induction r generalizing d inLoop a with
  | empty => exact .ofRegular (r := .empty) rfl inLoop a
  | chars fold s => exact .ofRegular (r := .chars fold s) rfl inLoop a
  | atStart => exact .ofRegular (r := .atStart) rfl inLoop a
  | atEnd => exact .ofRegular (r := .atEnd) rfl inLoop a
  | seq r s ihr ihs => exact (ihr d inLoop (0 :: a)).comp (ihs d inLoop (1 :: a))
  | alt r s ihr ihs =>
    intro p q hq
    have either := (ihr d inLoop (0 :: a)).union (ihs d inLoop (1 :: a))
    rw [ways] at hq
    split at hq
    · rename_i p' passed
      have same : p'.toOutcome = p.toOutcome := by
        split at passed
        · exact resumes_passFork? a passed
        · exact resumes_some passed
      exact either.resumed same hq
    · cases hq
  | repeated greedy low high r ih =>
    have copies (copy : Nat) := ih d (inLoop || r.nullable) ((copy + 1) :: a)
    cases d with
    | regular =>
      cases high with
      | none => exact (Sound.atLeastRegular copies greedy a r.nullable low).unbounded.forget inLoop
      | some high =>
        have forks (copy : Nat) : Resumes fun p =>
            if inLoop then p.passFork? (copy :: 0 :: a) else some p := by
          split
          · exact resumes_passFork? _
          · exact resumes_some
        exact (Sound.between (fun copy => copies (high - low + copy))
          (Sound.upTo forks copies greedy (high - low))).forget inLoop
    | backtracking =>
      cases high with
      | none =>
        exact (Sound.atLeastBacktracking (copies 0) greedy a r.nullable low).unbounded.forget inLoop
      | some high =>
        exact (Sound.between (fun _ => copies 0)
          (Sound.upTo (fun _ => resumes_some) (fun _ => copies 0) greedy (high - low))).forget inLoop
  | capture name r ih =>
    intro p q hq
    obtain ⟨m, hm, rfl⟩ := List.mem_map.1 hq
    obtain ⟨cs, trace, memory⟩ := ih d inLoop (0 :: a) hm
    exact ⟨cs ++ [(name, p.place.textTo m.place)], ⟨cs, trace, rfl⟩, by
      simp [Path.capture, memory, Place.textTo]⟩
  | ahead wanted r ih =>
    intro p q hq
    simp only [ways] at hq
    split at hq
    · rename_i m first
      obtain ⟨cs, trace, memory⟩ := ih _ _ _ (List.mem_of_mem_head? first)
      split at hq
      · obtain rfl := List.mem_singleton.1 hq
        exact ⟨cs, ⟨rfl, .inr ⟨m.place, trace⟩⟩, memory⟩
      · cases hq
    · split at hq
      · cases hq
      · obtain rfl := List.mem_singleton.1 hq
        exact ⟨[], ⟨rfl, .inl rfl⟩, (List.append_nil _).symm⟩
  | atomic r ih =>
    intro p q hq
    simp only [ways, Option.mem_toList] at hq
    split at hq
    · obtain ⟨m, first, rfl⟩ := Option.map_eq_some_iff.1 hq
      obtain ⟨cs, trace, memory⟩ := ih _ _ _ (List.mem_of_mem_head? first)
      have same : (m.resume p).toOutcome = m.toOutcome := by
        rw [Path.resume]
        split <;> rfl
      obtain ⟨place, captures⟩ := Outcome.mk.inj same
      exact ⟨cs, by rwa [place], by rwa [captures]⟩
    · exact ih _ _ _ (List.mem_of_mem_head? hq)

/-- What a search finds, it has come to by a trace. -/
theorem traces_of_mem_outcomes {r : Regex} {p : Place} {o : Outcome} (h : o ∈ r.outcomes p) :
    r.Traces p o.place o.captures := by
  rw [outcomes] at h
  obtain ⟨q, hq, rfl⟩ := List.mem_map.1 h
  obtain ⟨cs, trace, memory⟩ := sound_ways _ false [] r hq
  rw [memory]
  exact trace

/-- What the search for a regex in a text finds has been come to by a trace from some place. -/
theorem traces_of_search {r : Regex} {t : Text} {o : Outcome} (h : r.search t = some o) :
    ∃ p, r.Traces p o.place o.captures := by
  suffices from_ : ∀ offset, r.searchFrom offset t = some o → ∃ p, r.Traces p o.place o.captures from
    from_ 0 h
  clear h
  induction t with
  | nil =>
    intro offset h
    exact ⟨_, traces_of_mem_outcomes (List.mem_of_mem_head? h)⟩
  | cons c t ih =>
    intro offset h
    rw [searchFrom] at h
    split at h
    · rename_i o' os found
      cases h
      exact ⟨_, traces_of_mem_outcomes (found ▸ List.mem_cons_self)⟩
    · exact ih (offset + 1) h

/-- Pieces, last one first, with one named group for each of the slots, in order. A group takes a text
of the language of its slot. -/
structure Remembers (items : List Item) (slots : List (Text × TextLanguage)) : Prop where
  names : items.reverse.flatMap (fun i => i.regex.groupNames) = slots.map Prod.fst
  captures {p q : Place} {cs : Captures} :
    Step.all (items.reverse.map fun i => i.regex.Traces) p q cs →
      List.Forall₂ (fun slot capture => capture.1 = slot.1 ∧ capture.2 ∈ slot.2) slots cs

namespace Remembers

variable {items more : List Item} {slots slots' : List (Text × TextLanguage)}

theorem append (h : Remembers items slots) (h' : Remembers more slots') :
    Remembers (more ++ items) (slots ++ slots') where
  names := by
    rw [List.reverse_append, List.flatMap_append, List.map_append, h.names, h'.names]
  captures trace := by
    rw [List.reverse_append, List.map_append, Step.all_append] at trace
    obtain ⟨m, cs, cs', first, later, rfl⟩ := trace
    exact List.rel_append (h.captures first) (h'.captures later)

theorem nil : Remembers [] [] := ⟨rfl, fun trace => by
  obtain ⟨-, rfl⟩ := trace
  exact .nil⟩

/-- Pieces without names have no slots. -/
theorem unnamed (h : ∀ i ∈ items, i.regex.groupNames = []) : Remembers items [] where
  names := List.flatMap_eq_nil_iff.2 fun i hi => h i (List.mem_reverse.1 hi)
  captures trace := by
    have silent : ∀ R ∈ items.reverse.map fun i => i.regex.Traces, ∀ p q cs, R p q cs → cs = [] := by
      intro R hR p q cs own
      obtain ⟨i, hi, rfl⟩ := List.mem_map.1 hR
      exact Traces.captures_eq_nil (h i (List.mem_reverse.1 hi)) own
    rw [Step.captures_of_all silent trace]
    exact .nil

/-- A field with a name is a slot. -/
theorem named {name : Text} {L : TextLanguage} (h : Layout items [⟨some name, L⟩]) :
    Remembers items [(name, L)] where
  names := h.names
  captures trace := by
    have spans : items.reverse.map (fun i => i.regex.Traces) =
        items.reverse.map fun i => i.regex.Spans :=
      List.map_congr_left fun i hi => traces_eq_spans (h.isRegular i (List.mem_reverse.1 hi))
    rw [spans] at trace
    obtain ⟨ws, cut, -, rfl⟩ := (h.cuts _ _ _).1 trace
    cases cut with
    | cons own rest =>
      cases rest
      exact .cons ⟨rfl, own⟩ .nil

/-- What a search between the edges of the text finds is in the groups of the slots. -/
theorem search_between (h : Remembers items slots) {t : Text} {o : Outcome}
    (found : (between items).search t = some o) :
    List.Forall₂ (fun slot capture => capture.1 = slot.1 ∧ capture.2 ∈ slot.2) slots o.captures := by
  obtain ⟨p, trace⟩ := traces_of_search found
  rw [between, traces_concat, List.map_append, List.map_cons, List.map_map, Step.all_append] at trace
  obtain ⟨m, cs, cs', ⟨_, _, _, ⟨-, -, rfl⟩, inner, rfl⟩, ⟨_, _, _, ⟨-, -, rfl⟩, ⟨-, rfl⟩, rfl⟩, memory⟩ :=
    trace
  rw [memory, List.nil_append, List.append_nil]
  exact h.captures inner

/-- With different names, each slot finds its own text in its group. -/
theorem exists_texts (h : Remembers items slots) (nodup : (slots.map Prod.fst).Nodup) {t : Text}
    {o : Outcome} (found : (between items).search t = some o) :
    ∃ ws : List Text, List.Forall₂ (fun slot w => w ∈ slot.2) slots ws ∧
      ∀ (i : Nat) (name w : Text), (slots.map Prod.fst)[i]? = some name → ws[i]? = some w →
        o.group? name = some w := by
  have each := h.search_between found
  have names : o.captures.map Prod.fst = slots.map Prod.fst := by
    generalize o.captures = cs at each
    clear h nodup found
    induction each with
    | nil => rfl
    | cons own _ ih => rw [List.map_cons, List.map_cons, ih, own.1]
  have memory : o.captures = (slots.map Prod.fst).zip (o.captures.map Prod.snd) := by
    rw [← names, List.zip_map', List.map_id']
  refine ⟨o.captures.map Prod.snd, List.forall₂_map_right_iff.2 (each.imp fun _ _ => And.right),
    fun i name w hn hw => group?_of_zip memory ?_ nodup hn hw⟩
  rw [← names, List.length_map, List.length_map]

end Remembers

end StepMatch.Regex
