import StepMatch.Proofs.Matcher.Splitting

/-!
# References to variables

Any argument slot takes a reference to a variable instead of a value. Whether a text is one is decided
twice: by the alternative that the regex of the slot offers for it, and when the text that the slot took
is read. The first asks for a name without braces and blanks, the second takes whatever stands between
the braces. So what the regex of a data type takes may be read as a reference that is none.
-/

namespace StepMatch

namespace Argument

/-- A name in the braces of a reference. -/
def reference (name : Text) : Text := '$' :: '{' :: name ++ ['}']

/-- What the name of a variable is made of. -/
def IsName (name : Text) : Prop := name ≠ [] ∧ ∀ c ∈ name, c ≠ '{' ∧ c ≠ '}' ∧ isBlank c = false

instance (name : Text) : Decidable (IsName name) := inferInstanceAs (Decidable (_ ∧ _))

variable {t name : Text}

theorem reference_injective : Function.Injective reference := fun name name' h => by
  simpa [reference] using h

theorem variableName?_eq_some_iff : variableName? t = some name ↔ t = reference name := by
  rw [variableName?.eq_def]
  split
  · rw [Pattern.withoutEnding?_eq_some_iff]
    simp [reference]
  · rename_i other
    simpa [reference] using fun e => other _ e

theorem variableName?_eq_none_iff : variableName? t = none ↔ ∀ name, t ≠ reference name := by
  simp only [Option.eq_none_iff_forall_ne_some, ne_eq, variableName?_eq_some_iff]

end Argument

namespace Piece

open Argument (reference IsName)

/-- The regex of references offers those with a proper name. -/
theorem accepts_variableRegex_iff {t : Text} :
    Regex.Accepts variableRegex t ↔ ∃ name, IsName name ∧ t = reference name := by
  let inside : CharSet := .complement (.union (.union (.single '\x7b') (.single '\x7d')) .blank)
  let r : Regex := .seq (.seq (.seq (.chars false (.single '$')) (.chars false (.single '\x7b')))
    (.repeated true 1 none (.chars false inside))) (.chars false (.single '\x7d'))
  have read : Regex.read? .extended variableRegex = some r := by decide +kernel
  have language : r.language = {['$']} * {['\x7b']} * Regex.repeats 1 none (Regex.ofSet inside) *
      {['\x7d']} := by
    simp only [← Regex.ofSet_single]
    rfl
  have name_iff (c : Char) :
      inside.contains false c = true ↔ c ≠ '\x7b' ∧ c ≠ '\x7d' ∧ isBlank c = false := by
    simp [inside, CharSet.contains, and_assoc]
  have taken : t ∈ Regex.accepted variableRegex ↔ t ∈ r.language := by
    rw [Regex.accepted_eq (Regex.writes_grouped_of_read? read rfl rfl)]
  refine taken.trans ?_
  rw [language, Regex.singleton_mul_singleton]
  constructor
  · rintro ⟨_, ⟨_, rfl, name, each, rfl⟩, _, rfl, rfl⟩
    obtain ⟨some, each⟩ := Regex.mem_repeats_ofSet.1 each
    refine ⟨name, ⟨List.ne_nil_of_length_pos some, fun c hc => (name_iff c).1 (each c hc)⟩, ?_⟩
    simp [reference]
  · rintro ⟨name, ⟨ne, each⟩, rfl⟩
    refine ⟨_, ⟨_, rfl, name, Regex.mem_repeats_ofSet.2 ⟨List.length_pos_of_ne_nil ne, fun c hc =>
      (name_iff c).2 (each c hc)⟩, rfl⟩, _, rfl, ?_⟩
    simp [reference]

end Piece

/-- An argument slot with the text that it took. -/
structure Taken where
  binding : String
  type : DataType
  text : Text

namespace Taken

/-- A slot and its text, if the slot is one for an argument. -/
def ofSlot? : Piece × Text → Option Taken
  | (.argument binding type, t) => some ⟨binding, type, t⟩
  | _ => none

/-- What the slot took is reported as a variable exactly if it is a reference to one with a name of
a kind, and as the value that the data type reads in it exactly if it is not. -/
structure ReportedAs (l : Locale) (kind : Text → Prop) (x : Taken) (a : String × Argument) :
    Prop where
  binding : a.1 = x.binding
  reference (name : Text) : a.2 = .variable name ↔ kind name ∧ x.text = Argument.reference name
  value (v : Value) : a.2 = .literal v ↔
    (∀ name, kind name → x.text ≠ Argument.reference name) ∧ x.type.parse l x.text = .ok v

variable {l : Locale} {x : Taken} {a : String × Argument}

/-- The reading of a slot takes any name. -/
theorem reportedAs_of_read (h : Argument.read x.binding x.type l x.text = .ok a.2)
    (binding : a.1 = x.binding) : x.ReportedAs l (fun _ => True) a := by
  rw [Argument.read] at h
  split at h
  · rename_i name found
    rw [Argument.variableName?_eq_some_iff] at found
    refine ⟨binding, fun name' => ?_, fun v => ?_⟩
    · rw [← Except.ok.inj h, found, Argument.variable.injEq, Argument.reference_injective.eq_iff]
      simp
    · rw [← Except.ok.inj h]
      simpa using fun other => absurd found (other name)
  · rename_i none
    rw [Argument.variableName?_eq_none_iff] at none
    split at h
    · rename_i v parsed
      refine ⟨binding, fun name => ?_, fun v' => ?_⟩
      · rw [← Except.ok.inj h]
        simpa using none name
      · rw [← Except.ok.inj h, parsed]
        simpa using fun _ => none
    · cases h

/-- It makes no difference for names of a kind as long as the text is no reference with another
name. -/
theorem reportedAs_iff {kind : Text → Prop} (h : x.ReportedAs l (fun _ => True) a) :
    x.ReportedAs l kind a ↔ ∀ name, x.text = Argument.reference name → kind name := by
  constructor
  · intro h' name e
    exact ((h'.reference name).1 ((h.reference name).2 ⟨trivial, e⟩)).1
  · intro only
    refine ⟨h.binding, fun name => ?_, fun v => ?_⟩
    · rw [h.reference]
      exact ⟨fun e => ⟨only name e.2, e.2⟩, fun e => ⟨trivial, e.2⟩⟩
    · rw [h.value]
      exact and_congr_left fun _ =>
        ⟨fun none name _ => none name trivial, fun none name _ e => none name (only name e) e⟩

/-- Proper names are all that slots report as long as they take no reference but those that the regex
offers. -/
theorem forall₂_reportedAs_iff {xs : List Taken} {arguments : List (String × Argument)}
    (h : List.Forall₂ (ReportedAs l fun _ => True) xs arguments) :
    List.Forall₂ (ReportedAs l Argument.IsName) xs arguments ↔
      ∀ x ∈ xs, (∃ name, x.text = Argument.reference name) →
        Regex.Accepts Piece.variableRegex x.text := by
  have proper (x : Taken) : ((∃ name, x.text = Argument.reference name) →
      Regex.Accepts Piece.variableRegex x.text) ↔
      ∀ name, x.text = Argument.reference name → Argument.IsName name := by
    rw [Piece.accepts_variableRegex_iff]
    constructor
    · intro h name e
      obtain ⟨name', isName, e'⟩ := h ⟨name, e⟩
      exact Argument.reference_injective (e.symm.trans e') ▸ isName
    · rintro h ⟨name, e⟩
      exact ⟨name, h name e, e⟩
  induction h with
  | nil => simp
  | cons own _ ih =>
    rw [List.forall₂_cons, List.forall_mem_cons, reportedAs_iff own, proper]
    exact and_congr_right' ih

end Taken

namespace Matcher

open Taken (ReportedAs)

variable {m : Matcher} {l : Locale} {sentence : Text} {result : Match}

/-- The argument slots of a matcher, with what they took. -/
def taken (m : Matcher) (o : Regex.Outcome) : List Taken :=
  (m.slots.zip (capturedTexts o m.slots.length)).filterMap Taken.ofSlot?

theorem forall₂_argument? {slots : List (Piece × Text)} {arguments : List (String × Argument)}
    (h : arguments.map Except.ok = slots.filterMap (Piece.argument? l)) :
    List.Forall₂ (ReportedAs l fun _ => True) (slots.filterMap Taken.ofSlot?) arguments := by
  induction slots generalizing arguments with
  | nil =>
    rw [List.filterMap_nil, List.map_eq_nil_iff] at h
    rw [h]
    exact .nil
  | cons slot slots ih =>
    obtain ⟨_ | ⟨binding, type⟩ | _, t⟩ := slot
    · exact ih h
    · rw [List.filterMap_cons, Piece.argument?] at h
      obtain ⟨a, arguments, rfl, own, later⟩ := List.map_eq_cons_iff.1 h
      obtain ⟨argument, read, rfl⟩ := ok_of_map own.symm
      exact .cons (Taken.reportedAs_of_read (x := ⟨binding, type, t⟩) read rfl) (ih later)
    · exact ih h

/-- What the arguments of a match are. -/
theorem exists_taken (matched : m.matchIn l sentence = .ok (some result)) :
    ∃ p o, m.program l = .ok p ∧ p.regex.search sentence = some o ∧
      List.Forall₂ (ReportedAs l fun _ => True) (m.taken o) result.arguments := by
  obtain ⟨p, built, matched⟩ := ok_of_bind matched
  rw [matchWith] at matched
  split at matched
  · cases matched
  · rename_i o found
    obtain ⟨result', run, e⟩ := ok_of_map matched
    cases e
    refine ⟨p, o, built, found, forall₂_argument? ?_⟩
    cases refused : (m.slots.zip (capturedTexts o m.slots.length)).findSome? (Piece.refusal? l) with
    | some fault =>
      rw [Match.foldlM_of_refused refused] at run
      cases run
    | none =>
      obtain ⟨result', run', arguments, -⟩ := Match.foldlM_of_read (m := {}) refused
      cases run.symm.trans run'
      simpa using arguments

/-- A matcher of a single argument slot takes a text that its data type takes, and reports the value that this
reads in it. -/
theorem exists_matchIn_of_slot {binding : String} {type : DataType} {v : Value}
    (slot : m.pieces = [.argument binding type]) (loc : Regex.isLocalText (type.regex l))
    (accepted : Regex.Accepts (type.regex l) sentence) (plain : ∀ name, sentence ≠ Argument.reference name)
    (parsed : type.parse l sentence = .ok v) :
    ∃ result, m.matchIn l sentence = .ok (some result) ∧ result.arguments = [(binding, .literal v)] := by
  have readable : ∀ piece ∈ m.pieces, piece.IsReadable l := by
    rw [slot]
    exact List.forall_mem_singleton.2 (Piece.isReadable_argument loc)
  have whole : m.Splits l sentence [sentence] := by
    rw [Splits, slot]
    exact ⟨.cons (.inr accepted) .nil, List.flatten_singleton⟩
  obtain ⟨ws, -, -, ⟨taken, joined⟩, -, -, -, -, collects⟩ :=
    (followsSplits_of_isReadable readable sentence).matched ⟨_, whole⟩
  rw [slot] at taken
  obtain ⟨w, _, -, none, rfl⟩ := List.forall₂_cons_left_iff.1 taken
  obtain rfl := List.forall₂_nil_left_iff.1 none
  rw [List.flatten_singleton] at joined
  have slots : m.slots.zip (Piece.slotTexts m.pieces [w]) = [(.argument binding type, sentence)] := by
    rw [slots, slot, joined]
    rfl
  have read : Argument.read binding type l sentence = .ok (.literal v) := by
    rw [Argument.read, Argument.variableName?_eq_none_iff.2 plain, parsed]
  obtain ⟨result, matched, arguments, -⟩ := collects (by simp [slots, Piece.refusal?, read])
  refine ⟨result, matched, List.map_injective_iff.2 (fun _ _ => Except.ok.inj) (arguments.trans ?_)⟩
  simp [slots, Piece.argument?, read, Except.map]

/-- Each argument of a match is a variable exactly if its slot took a reference, whatever stands in
the braces, and otherwise the value that the data type reads in what the slot took. That only
references with a proper name are taken for variables holds exactly if no slot took anything written
like a reference but what the regex offers for references. -/
theorem reportedAs_of_matchIn (matched : m.matchIn l sentence = .ok (some result)) :
    ∃ p o, m.program l = .ok p ∧ p.regex.search sentence = some o ∧
      List.Forall₂ (ReportedAs l fun _ => True) (m.taken o) result.arguments ∧
      (List.Forall₂ (ReportedAs l Argument.IsName) (m.taken o) result.arguments ↔
        ∀ x ∈ m.taken o, (∃ name, x.text = Argument.reference name) →
          Regex.Accepts Piece.variableRegex x.text) := by
  obtain ⟨p, o, built, found, reported⟩ := exists_taken matched
  exact ⟨p, o, built, found, reported, Taken.forall₂_reportedAs_iff reported⟩

/-- A slot that takes a word takes a reference for a variable. -/
theorem reportedAs_of_word : ∃ m result p o,
    compile .standard .standard .default "{x:word}".toList = .ok m ∧
      m.matchIn .default "$\x7bhome\x7d".toList = .ok (some result) ∧
      m.program .default = .ok p ∧ p.regex.search "$\x7bhome\x7d".toList = some o ∧
      List.Forall₂ (ReportedAs .default fun _ => True) (m.taken o) result.arguments ∧
      (List.Forall₂ (ReportedAs .default Argument.IsName) (m.taken o) result.arguments ↔
        ∀ x ∈ m.taken o, (∃ name, x.text = Argument.reference name) →
          Regex.Accepts Piece.variableRegex x.text) := by
  obtain ⟨m, compiled, matched⟩ := exists_ok
    (x := compile .standard .standard .default "{x:word}".toList)
    (p := fun m => (m.matchIn .default "$\x7bhome\x7d".toList).toOption.any Option.isSome)
    (by decide +kernel)
  obtain ⟨found, e, some⟩ := exists_ok matched
  obtain ⟨result, rfl⟩ := Option.isSome_iff_exists.1 some
  obtain ⟨p, o, reported⟩ := reportedAs_of_matchIn e
  exact ⟨m, result, p, o, compiled, e, reported⟩

/-- Braces with nothing in them are taken by a word, and reported as a variable without a name. -/
theorem not_reportedAs_of_empty_braces : ∃ m result p o,
    compile .standard .standard .default "{x:word}".toList = .ok m ∧
      m.matchIn .default "$\x7b\x7d".toList = .ok (some result) ∧
      m.program .default = .ok p ∧ p.regex.search "$\x7b\x7d".toList = some o ∧
      (m.taken o).map Taken.text = ["$\x7b\x7d".toList] ∧
      ¬ List.Forall₂ (ReportedAs .default Argument.IsName) (m.taken o) result.arguments := by
  obtain ⟨m, compiled, matched⟩ := exists_ok
    (x := compile .standard .standard .default "{x:word}".toList)
    (p := fun m => (m.matchIn .default "$\x7b\x7d".toList).toOption.any Option.isSome &&
      (m.program .default).toOption.any fun p => (p.regex.search "$\x7b\x7d".toList).any fun o =>
        (m.taken o).map Taken.text == ["$\x7b\x7d".toList])
    (by decide +kernel)
  rw [Bool.and_eq_true] at matched
  obtain ⟨found, e, some⟩ := exists_ok matched.1
  obtain ⟨result, rfl⟩ := Option.isSome_iff_exists.1 some
  obtain ⟨p, o, built, search, reported⟩ := exists_taken e
  have texts : (m.taken o).map Taken.text = ["$\x7b\x7d".toList] := by
    have texts := matched.2
    rw [built, Except.toOption, Option.any_some, search, Option.any_some] at texts
    exact eq_of_beq texts
  refine ⟨m, result, p, o, compiled, e, built, search, texts, fun proper => ?_⟩
  obtain ⟨x, xs, split, own, -⟩ := List.map_eq_cons_iff.1 texts
  rw [split] at reported proper
  obtain ⟨a, _, loose, -, e⟩ := List.forall₂_cons_left_iff.1 reported
  rw [e] at proper
  have none := (Taken.reportedAs_iff loose).1 (List.forall₂_cons.1 proper).1 [] own
  exact none.1 rfl

end Matcher

end StepMatch
