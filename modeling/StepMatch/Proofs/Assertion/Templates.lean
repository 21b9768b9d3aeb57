import StepMatch.Proofs.Pattern.Literals
import StepMatch.Proofs.Regex.Shared
import StepMatch.Assertion.Phrase

/-!
# The regexes of templates

A template makes two regexes. In a sentence, any of the phrases of a set may stand in a slot, and the
values are groups without names. A text that was taken by the slot is tried with each phrase as a whole,
and there the value has a name. The first regex is written in the extended dialect and the second in the
plain one, and they are to take the same texts.
-/

namespace StepMatch

namespace Regex

variable {d : Dialect} {t u value : Text}

/-- Whether reading the text leaves the names in use as they are. -/
def KeepsNames (d : Dialect) (t : Text) : Prop := ∀ s s' : State, (s.settled d).mode = .plain →
  t.foldlM (State.step d) s = some s' → s'.names = s.names ∧ (s'.settled d).mode = .plain

namespace KeepsNames

theorem nil (d : Dialect) : KeepsNames d [] := by
  rintro s _ plain ⟨⟩
  exact ⟨rfl, plain⟩

theorem append (h : KeepsNames d t) (h' : KeepsNames d u) : KeepsNames d (t ++ u) := by
  intro s s' plain run
  rw [List.foldlM_append] at run
  obtain ⟨m, first, later⟩ := Option.bind_eq_some_iff.1 run
  obtain ⟨names, plain⟩ := h s m plain first
  obtain ⟨names', plain⟩ := h' m s' plain later
  exact ⟨names'.trans names, plain⟩

theorem flatMap {α : Type} {f : α → Text} {l : List α} (h : ∀ a ∈ l, KeepsNames d (f a)) :
    KeepsNames d (l.flatMap f) := by
  induction l with
  | nil => exact nil d
  | cons a l ih =>
    obtain ⟨own, rest⟩ := List.forall_mem_cons.1 h
    exact own.append (ih rest)

theorem settled_names (s : State) : (s.settled d).names = s.names := by
  rw [State.settled]
  split <;> rfl

/-- It is enough to look at states without a quantifier that waits. -/
theorem of_settled (ne : t ≠ []) (head : t.head? ≠ some '?' ∧ t.head? ≠ some '+')
    (h : ∀ s s' : State, s.mode = .plain → t.foldlM (State.step d) s = some s' →
      s'.names = s.names ∧ (s'.settled d).mode = .plain) : KeepsNames d t := by
  intro s s' plain run
  obtain ⟨c, t, rfl⟩ := List.exists_cons_of_ne_nil ne
  rw [List.foldlM_cons, State.step_settled (by simpa using head.1) (by simpa using head.2),
    ← List.foldlM_cons] at run
  rw [← settled_names (d := d) s]
  exact h _ _ plain run

theorem escapeChar (d : Dialect) (c : Char) : KeepsNames d (escapeChar c) := by
  refine of_settled ?_ ?_ fun s s' plain run => ?_
  · rw [Regex.escapeChar]
    split <;> simp
  · rw [Regex.escapeChar]
    split
    · simp
    · rename_i other
      constructor <;> (rintro ⟨⟩; exact other rfl)
  · rw [foldlM_escapeChar plain c] at run
    cases run
    exact ⟨rfl, rfl⟩

theorem blanks (d : Dialect) : KeepsNames d blanks := by
  refine of_settled (by decide) (by decide) fun s s' plain run => ?_
  have text : Regex.blanks = ['\\', 's'] ++ ['+'] := rfl
  rw [text, State.foldlM_append (foldlM_blank plain)] at run
  cases run
  exact ⟨rfl, rfl⟩

theorem escape (d : Dialect) (w : Text) : KeepsNames d (escape w) :=
  flatMap fun c _ => escapeChar d c

end KeepsNames

end Regex

open Regex (Writes WritesBody Dialect Field Layout Accepts)
open Pattern (literalGroup)

variable {d : Dialect} {L : TextLanguage} {parts : List Text} {part before after value w : Text}
  {v? : Option Text}

/-- The regex of a part of a template takes what differs from the part in white space alone. -/
theorem writes_partOfTemplate (d : Dialect) (part : Text) :
    Writes false d (partOfTemplateRegex part) (literalGroup part).language := by
  have edge : ∀ b : Bool, Writes false d (if b then Regex.blanks else [])
      (Pattern.Space.ofLead b).language := fun b =>
    match b with
    | true => Pattern.writes_space d .blanks
    | false => Pattern.writes_space d .none
  rw [partOfTemplateRegex, literalGroup, ← Pattern.map_wordsOf]
  cases found : Pattern.wordsOf part with
  | nil =>
    have own : (if part.isEmpty then [] else Regex.blanks) =
        if part.startsBlank then Regex.blanks else [] := by
      cases part with
      | nil => rfl
      | cons c t =>
        have opens : Text.startsBlank (c :: t) = true := Text.startsBlank_of_words_eq_nil
          (List.cons_ne_nil c t) (by rw [← Pattern.map_wordsOf, found]; rfl)
        rw [opens]
        rfl
    rw [List.map_nil]
    dsimp only
    rw [own]
    exact edge _
  | cons first more =>
    have spaced := Pattern.spacedWords_map_text first more
    rw [List.map_cons] at spaced ⊢
    dsimp only
    rw [spaced]
    exact ((edge _).append (Pattern.writes_words d first more)).append (edge _)

theorem keepsNames_partOfTemplate (d : Dialect) (part : Text) :
    Regex.KeepsNames d (partOfTemplateRegex part) := by
  have edge : ∀ b : Bool, Regex.KeepsNames d (if b then Regex.blanks else []) := fun b =>
    match b with
    | true => .blanks d
    | false => .nil d
  rw [partOfTemplateRegex]
  cases part.words with
  | nil =>
    dsimp only
    split
    · exact .nil d
    · exact .blanks d
  | cons first more =>
    refine ((edge _).append ?_).append (edge _)
    rw [Regex.spacedWords, List.map_cons, Text.joinWith_cons]
    refine (Regex.KeepsNames.escape d first).append (.flatMap fun v hv => ?_)
    obtain ⟨word, -, rfl⟩ := List.mem_map.1 hv
    exact (Regex.KeepsNames.blanks d).append (.escape d word)

/-- A text is written as the parts of a template, white space aside, with a word of the language where
the value stands. -/
inductive Phrased (L : TextLanguage) : List Text → Text → Option Text → Prop
  | bare {part t : Text} (same : Text.Alike t part) : Phrased L [part] t none
  | taking {before after t v u : Text} (front : Text.Alike t before) (value : v ∈ L)
      (back : Text.Alike u after) : Phrased L [before, after] (t ++ (v ++ u)) (some v)

theorem Phrased.value_mem {t v : Text} (h : Phrased L parts t (some v)) : v ∈ L := by
  cases h with
  | taking _ value _ => exact value

/-- The texts that are written as the parts of a template. -/
def phrasedLanguage (L : TextLanguage) (parts : List Text) : TextLanguage :=
  {t | ∃ v?, Phrased L parts t v?}

theorem phrasedLanguage_bare (L : TextLanguage) (part : Text) :
    phrasedLanguage L [part] = (literalGroup part).language := by
  ext t
  change (∃ v?, Phrased L [part] t v?) ↔ t ∈ (literalGroup part).language
  rw [Pattern.mem_literalGroup_iff]
  constructor
  · rintro ⟨_, written⟩
    cases written with
    | bare same => exact same
  · exact fun same => ⟨_, .bare same⟩

theorem phrasedLanguage_taking (L : TextLanguage) (before after : Text) :
    phrasedLanguage L [before, after] =
      (literalGroup before).language * (L * (literalGroup after).language) := by
  ext t
  change (∃ v?, Phrased L [before, after] t v?) ↔ _
  simp only [Language.mem_mul, Pattern.mem_literalGroup_iff]
  constructor
  · rintro ⟨_, written⟩
    cases written with
    | taking front value back => exact ⟨_, front, _, ⟨_, value, _, back, rfl⟩, rfl⟩
  · rintro ⟨_, front, _, ⟨_, value, _, back, rfl⟩, rfl⟩
    exact ⟨_, .taking front value back⟩

/-- The fields of a template with at most one value. -/
def templateFields (L : TextLanguage) : List Text → List Field
  | [part] => [⟨none, (literalGroup part).language⟩]
  | [before, after] =>
    [⟨none, (literalGroup before).language⟩, ⟨some valueGroup, L⟩,
      ⟨none, (literalGroup after).language⟩]
  | _ => []

theorem templateParts_ne_nil (template : Text) : templateParts template ≠ [] := by
  induction template using templateParts.induct <;> simp_all [templateParts]

/-- A template has one part or two, if it takes one value at most. -/
theorem templateParts_cases {template : Text} (few : (templateParts template).length ≤ 2) :
    (∃ part, templateParts template = [part]) ∨
      ∃ before after, templateParts template = [before, after] := by
  match found : templateParts template with
  | [] => exact absurd found (templateParts_ne_nil template)
  | [part] => exact .inl ⟨part, rfl⟩
  | [before, after] => exact .inr ⟨before, after, rfl⟩
  | _ :: _ :: _ :: _ => simp [found] at few

theorem templateRegex_bare {template : Text} (found : templateParts template = [part]) (value : Text) :
    templateRegex template value = partOfTemplateRegex part := by
  simp [templateRegex, found, Text.joinWith]

theorem templateRegex_taking {template : Text} (found : templateParts template = [before, after])
    (value : Text) : templateRegex template value =
      partOfTemplateRegex before ++ (value ++ partOfTemplateRegex after) := by
  simp [templateRegex, found, Text.joinWith]

/-- The regex that names the value, up to the anchor that closes it. -/
theorem foldlM_taking (h : Regex.Embeds .plain value L) (before after : Text) :
    ∃ s' items target names,
      (partOfTemplateRegex before ++ (Regex.namedGroup valueGroup value ++ partOfTemplateRegex after)).foldlM
        (Regex.State.step .plain) (.anchored .plain) = some s' ∧
      s'.settled .plain = (Regex.State.anchored .plain).adding items target names ∧
      Layout items (templateFields L [before, after]) := by
  obtain ⟨s₁, front, target₁, names₁, run₁, settled₁, layout₁⟩ :=
    (writes_partOfTemplate .plain before).lays (.anchored .plain) rfl rfl
  have unused : (s₁.settled .plain).names = [] := by
    rw [Regex.KeepsNames.settled_names]
    exact (keepsNames_partOfTemplate .plain before _ _ rfl run₁).1
  have ne : valueGroup ≠ [] := by decide
  have allowed : ∀ c ∈ valueGroup, Regex.Dialect.plain.allowsInName true c :=
    List.all_eq_true.1 (by decide)
  obtain ⟨as, items, names₂, body, run₂⟩ := Regex.Closes.foldlM_named h ne allowed
    (s := s₁.settled .plain) (by rw [settled₁]; rfl) (by rw [settled₁]; rfl) fun _ => by simp [unused]
  obtain ⟨s₃, back, target₃, names₃, run₃, settled₃, layout₃⟩ :=
    (writes_partOfTemplate .plain after).lays
      ((s₁.settled .plain).adding [⟨.capture valueGroup (Regex.bodyOf as items), true⟩] .piece names₂)
      (by rw [settled₁]; rfl) (by rw [settled₁]; rfl)
  obtain ⟨loc, unnamed, rfl⟩ := body
  have own := Layout.named loc unnamed valueGroup
  refine ⟨s₃, _, target₃, names₃, ?_, ?_, (layout₁.append own).append layout₃⟩
  · have group : (Regex.namedGroup valueGroup value).foldlM (Regex.State.step .plain) s₁ =
        (Regex.namedGroup valueGroup value).foldlM (Regex.State.step .plain) (s₁.settled .plain) := by
      rw [Regex.namedGroup]
      exact congrArg (· >>= _) (Regex.State.step_settled (by decide) (by decide))
    rw [Regex.State.foldlM_append run₁, Regex.State.foldlM_append (group.trans run₂), run₃]
  · rw [settled₃, settled₁]
    simp [Regex.State.adding]

/-- A template with at most one value makes a regex for whole texts, with fields as its parts say. -/
theorem read?_template {template : Text} (h : Regex.Embeds .plain value L)
    (few : (templateParts template).length ≤ 2) :
    ∃ items, Regex.read? .plain (Regex.anchored
        (templateRegex template (Regex.namedGroup valueGroup value))) = some (Regex.between items) ∧
      Layout items (templateFields L (templateParts template)) := by
  obtain ⟨part, found⟩ | ⟨before, after, found⟩ := templateParts_cases few
  · rw [templateRegex_bare found, found]
    exact (writes_partOfTemplate .plain part).lays.read?_anchored (by simp)
  · rw [templateRegex_taking found, found]
    obtain ⟨s', items, target, names, run, settled, layout⟩ := foldlM_taking h before after
    refine ⟨items, Regex.read?_anchored_of_run run settled ?_, layout⟩
    rw [layout.names]
    simp [templateFields]

/-- In a sentence, a template takes the texts that are written as its parts say. -/
theorem writes_template {template : Text} (h : Regex.Embeds d value L)
    (few : (templateParts template).length ≤ 2) :
    Writes false d (templateRegex template (Regex.grouped value))
      (phrasedLanguage L (templateParts template)) := by
  obtain ⟨part, found⟩ | ⟨before, after, found⟩ := templateParts_cases few
  · rw [templateRegex_bare found, found, phrasedLanguage_bare]
    exact writes_partOfTemplate d part
  · rw [templateRegex_taking found, found, phrasedLanguage_taking]
    exact (writes_partOfTemplate d before).append
      (h.writes_grouped.append (writes_partOfTemplate d after))

end StepMatch
