import StepMatch.Proofs.Regex.Shared
import StepMatch.Text.Case

/-!
# Words in any case

A group in which the case of letters does not count, with a few words as its alternatives. What it takes
closes with ink if all of the words do.
-/

namespace StepMatch.Regex

variable {d : Dialect} {s : State} {t w : Text} {ws : List Text}

/-- The texts that are written as the word is, but for the case of letters. -/
def anyCase (w : Text) : TextLanguage := (w.map fun c => (Regex.chars true (.single c)).language).prod

theorem mem_anyCase_iff {v w : Text} : v ∈ anyCase w ↔ List.Forall₂ (fun c c' => c ∈ caseVariants c') w v := by
  have own {c c' : Char} : (CharSet.single c).contains true c' ↔ c ∈ caseVariants c' := by
    simp [CharSet.contains]
  induction w generalizing v with
  | nil => simp [anyCase, Language.mem_one]
  | cons c w ih =>
    rw [anyCase, List.map_cons, List.prod_cons, Language.mem_mul, List.forall₂_cons_left_iff]
    constructor
    · rintro ⟨_, ⟨c', same, rfl⟩, v, later, rfl⟩
      exact ⟨c', v, own.1 same, ih.1 later, rfl⟩
    · rintro ⟨c', v, same, later, rfl⟩
      exact ⟨[c'], ⟨c', own.2 same, rfl⟩, v, ih.2 later, rfl⟩

/-- The pieces of a word in any case, last one first. -/
def anyCaseItems (w : Text) : List Item := w.reverse.map fun c => ⟨.chars true (.single c), true⟩

theorem stretch_anyCase (w : Text) : Stretch false (anyCaseItems w) (anyCase w) where
  isLocal := by simp [anyCaseItems, isLocal]
  unnamed := by simp [anyCaseItems, groupNames]
  language := by simp [anyCaseItems, anyCase, Function.comp_def]
  firm := by simp

theorem body_anyCase (w : Text) : Body false [] (anyCaseItems w) (anyCase w) :=
  ⟨by simp, by simp, ⟨_, stretch_anyCase w, by simp⟩, by simp⟩

/-- Escaped text adds its characters one by one. -/
theorem foldlM_escape (plain : s.mode = .plain) (w : Text) :
    (escape w).foldlM (State.step d) s = some (w.foldl State.literal s) := by
  induction w generalizing s with
  | nil => rfl
  | cons c w ih =>
    rw [escape, List.flatMap_cons, State.foldlM_append (foldlM_escapeChar plain c)]
    exact ih rfl

theorem exists_foldl_literal (plain : s.mode = .plain) (fold : s.inner.fold = true) (w : Text) :
    ∃ target, w.foldl State.literal s = { s with
      inner := ⟨s.inner.kind, true, s.inner.alternatives, anyCaseItems w ++ s.inner.items, target⟩ } := by
  obtain ⟨mode, ⟨kind, _, alternatives, items, target⟩, outer, names⟩ := s
  cases plain
  cases fold
  induction w generalizing items target with
  | nil => exact ⟨target, rfl⟩
  | cons c w ih =>
    obtain ⟨target, rest⟩ := ih (⟨.chars true (.single c), true⟩ :: items) .piece
    exact ⟨target, rest.trans (by simp [anyCaseItems])⟩

/-- A word by itself, at the start of an alternative. -/
theorem exists_foldlM_word (plain : s.mode = .plain) (fold : s.inner.fold = true)
    (none : s.inner.items = []) (w : Text) : ∃ target, (escape w).foldlM (State.step d) s = some { s with
      inner := ⟨s.inner.kind, true, s.inner.alternatives, anyCaseItems w, target⟩ } := by
  obtain ⟨target, literals⟩ := exists_foldl_literal plain fold w
  refine ⟨target, ?_⟩
  rw [foldlM_escape plain, literals, none, List.append_nil]

/-- Words with bars between them, at the start of an alternative. -/
theorem exists_foldlM_words (plain : s.mode = .plain) (fold : s.inner.fold = true)
    (none : s.inner.items = []) (ne : ws ≠ []) : ∃ as items target,
      (alternatives (ws.map escape)).foldlM (State.step d) s = some { s with
        inner := ⟨s.inner.kind, true, as ++ s.inner.alternatives, items, target⟩ } ∧
      Body false as items (ws.map anyCase).sum := by
  obtain ⟨w, ws, rfl⟩ := List.exists_cons_of_ne_nil ne
  clear ne
  induction ws generalizing s w with
  | nil =>
    obtain ⟨target, run⟩ := exists_foldlM_word plain fold none w
    refine ⟨[], anyCaseItems w, target, ?_, by simpa using body_anyCase w⟩
    simpa [alternatives, Text.joinWith] using run
  | cons u us ih =>
    obtain ⟨target, run⟩ := exists_foldlM_word (d := d) plain fold none w
    let g : Scope := ⟨s.inner.kind, true, s.inner.alternatives, anyCaseItems w, target⟩
    let next : State := { s with inner := g.nextAlternative }
    obtain ⟨as, items, target', run', body⟩ := ih (s := next) plain rfl rfl u
    refine ⟨as ++ [g.lastAlternative], items, target', ?_, ?_⟩
    · have text : alternatives ((w :: u :: us).map escape) =
          escape w ++ '|' :: alternatives ((u :: us).map escape) := by
        simp [alternatives, Text.joinWith]
      rw [text, State.foldlM_append run, List.foldlM_cons]
      obtain ⟨mode, inner, outer, names⟩ := s
      cases plain
      refine run'.trans ?_
      simp [next, g, Scope.nextAlternative]
    · rw [List.map_cons, List.sum_cons]
      exact (body_anyCase w).bar body

/-- A group in which case does not count takes the words in any case. -/
theorem writes_foldedGroup (d : Dialect) (ne : ws ≠ []) :
    Writes false d (foldedGroup (alternatives (ws.map escape))) (ws.map anyCase).sum := by
  intro s plain fold
  let opened : State := s.openGroup .plain true
  obtain ⟨as, items, target, run, body⟩ := exists_foldlM_words (s := opened) (d := d) rfl rfl rfl ne
  let g : Scope := ⟨.plain, true, as ++ [], items, target⟩
  have own : g.body.isLocal ∧ g.body.groupNames = [] ∧ g.body.language = (ws.map anyCase).sum :=
    body.scope (List.append_nil as) rfl
  obtain ⟨items', target', pushed, stretch⟩ := Scope.exists_stretch d (g := g) rfl own s.inner
  refine ⟨{ s with inner := { s.inner with items := items' ++ s.inner.items, target := target' } }, items',
    target', s.names, ?_, State.settled_of_plain plain, stretch⟩
  have opens : "(?i:".toList.foldlM (State.step d) s = some opened := by
    obtain ⟨mode, inner, outer, names⟩ := s
    cases plain
    cases d <;> rfl
  rw [foldedGroup, List.append_assoc, State.foldlM_append opens, State.foldlM_append run, List.foldlM_cons]
  have closed : State.step d { opened with inner := g } ')' =
      some { s with inner := s.inner.pushGroup d g } := by
    obtain ⟨mode, inner, outer, names⟩ := s
    cases plain
    rfl
  change State.step d { opened with inner := g } ')' >>= _ = _
  rw [closed, pushed]
  rfl

/-- Only a blank is a blank in another case. -/
theorem isInky_single {c : Char} (ink : isBlank c = false) : (CharSet.single c).isInky true = true := by
  have alone : (blankChars.all fun b => (caseVariants b).all isBlank) = true := by decide +kernel
  refine List.all_eq_true.2 fun b hb => ?_
  simp only [CharSet.contains, if_true, Bool.not_eq_true', List.contains_eq_mem, decide_eq_false_iff_not]
  intro mem
  rw [List.all_eq_true.1 (List.all_eq_true.1 alone b hb) c mem] at ink
  cases ink

theorem closesInInk_anyCase (ne : w ≠ []) (ink : w.endsBlank = false) : ClosesInInk (anyCase w) := by
  obtain ⟨u, c, rfl⟩ := List.eq_nil_or_concat w |>.resolve_left ne
  have own : isBlank c = false := by simpa [Text.endsBlank] using ink
  have last : ClosesInInk (Regex.chars true (.single c)).language := by
    rintro _ ⟨c', mem, rfl⟩
    exact ⟨List.cons_ne_nil _ _, CharSet.isBlank_eq_false (isInky_single own) mem⟩
  rw [anyCase, List.concat_eq_append, List.map_append, List.prod_append, List.map_singleton,
    List.prod_singleton]
  exact last.mul _

theorem closesInInk_sum {Ls : List TextLanguage} (each : ∀ L ∈ Ls, ClosesInInk L) : ClosesInInk Ls.sum := by
  induction Ls with
  | nil => exact fun w hw => absurd hw (Language.notMem_zero w)
  | cons L Ls ih =>
    obtain ⟨own, rest⟩ := List.forall_mem_cons.1 each
    exact own.add (ih rest)

/-- Words that close with ink, in any case. -/
theorem isValuePart_foldedGroup (ne : ws ≠ []) (each : ∀ w ∈ ws, w ≠ [] ∧ w.endsBlank = false) :
    IsValuePart false (foldedGroup (alternatives (ws.map escape))) := by
  refine ⟨_, fun d => writes_foldedGroup d ne, closesInInk_sum fun L hL => ?_⟩
  obtain ⟨w, hw, rfl⟩ := List.mem_map.1 hL
  exact closesInInk_anyCase (each w hw).1 (each w hw).2

end StepMatch.Regex
