import StepMatch.Proofs.Assertion.Phrases

/-!
# Sentences and phrases agree

The regex of a set stands in sentences, and takes any of its phrases there. The text that it took is
then tried with each phrase, without the blanks at its ends. If a template opens or ends with blanks,
these are lost in between, and the text may fit no phrase any more. A text is resolved if and only if
the regex of its set takes what is left of it between the blanks.

The two readings are in two dialects. So the regex for the values must be one that both of them read in
the same way; nothing else is asked of it than that it looks at nothing but what it takes.
-/

namespace StepMatch

namespace Regex

variable {t name : Text} {s s' : State}

/-- In the plain dialect, a group takes a name that is not in use, and leaves it in use. -/
theorem names_of_foldlM_named (allowed : ∀ c ∈ name, Dialect.plain.allowsInName true c)
    (plain : (s.settled .plain).mode = .plain)
    (run : (namedGroup name t).foldlM (State.step .plain) s = some s') :
    name ∉ s.names ∧ name ∈ s'.names := by
  have text : namedGroup name t = '(' :: '?' :: 'P' :: '<' :: (name ++ '>' :: (t ++ [')'])) := by
    simp [namedGroup]
  have opened : ['(', '?', 'P', '<'].foldlM (State.step .plain) (s.settled .plain) =
      some { s.settled .plain with mode := .name [] } := by
    generalize s.settled .plain = m at plain
    obtain ⟨mode, inner, outer, names⟩ := m
    cases plain
    rfl
  rw [text, List.foldlM_cons, State.step_settled (by decide) (by decide), ← List.foldlM_cons] at run
  change (['(', '?', 'P', '<'] ++ (name ++ '>' :: (t ++ [')']))).foldlM _ _ = _ at run
  rw [State.foldlM_append opened, State.foldlM_append (foldlM_name allowed [] rfl),
    List.foldlM_cons, List.nil_append] at run
  obtain ⟨m, closed, later⟩ := Option.bind_eq_some_iff.1 run
  change State.readName .plain _ name '>' = some m at closed
  unfold State.readName at closed
  split at closed
  · split at closed
    · cases closed
    · rename_i free
      cases closed
      rw [← KeepsNames.settled_names (d := .plain) s]
      refine ⟨fun used => free ?_, (State.Grows.run later).kept.mem List.mem_cons_self⟩
      simp [used]
  · rename_i other
    exact absurd rfl other

end Regex

open Regex (Dialect Embeds Takes isLocalIn WritesBody)

variable {d : Dialect} {L K : TextLanguage} {value t template : Text} {r : Regex} {v? : Option Text}
  {e : PhraseEntry} {entries : List PhraseEntry} {s : PhraseSet} {parts : List Text}

/-- A template with more than one value makes no regex, since the name of the value would stand in it
twice. -/
theorem few_of_read? (h : Embeds .plain value L)
    (read : Regex.read? .plain (Regex.anchored
      (templateRegex template (Regex.namedGroup valueGroup value))) = some r) :
    (templateParts template).length ≤ 2 := by
  by_contra many
  obtain ⟨front, middle, back, rest, found⟩ :
      ∃ front middle back rest, templateParts template = front :: middle :: back :: rest := by
    match templateParts template, many with
    | front :: middle :: back :: rest, _ => exact ⟨front, middle, back, rest, rfl⟩
    | [], many | [_], many | [_, _], many => exact absurd (by simp) many
  have text : ∃ later, templateRegex template (Regex.namedGroup valueGroup value) =
      partOfTemplateRegex front ++ (Regex.namedGroup valueGroup value ++
        (partOfTemplateRegex middle ++ (Regex.namedGroup valueGroup value ++ later))) := by
    refine ⟨Text.joinWith (Regex.namedGroup valueGroup value)
      ((back :: rest).map partOfTemplateRegex), ?_⟩
    simp [templateRegex, found, Text.joinWith]
  obtain ⟨later, text⟩ := text
  have allowed : ∀ c ∈ valueGroup, Dialect.plain.allowsInName true c :=
    List.all_eq_true.1 (by decide)
  -- The name of the value is in use from the first group on, up to the second one.
  obtain ⟨m, items, target, names, run, settled, -⟩ := foldlM_taking h front middle
  have used : valueGroup ∈ m.names := by
    rw [List.foldlM_append] at run
    obtain ⟨m₁, first, run⟩ := Option.bind_eq_some_iff.1 run
    rw [List.foldlM_append] at run
    obtain ⟨m₂, group, run⟩ := Option.bind_eq_some_iff.1 run
    have plain := (keepsNames_partOfTemplate .plain front _ _ rfl first).2
    exact (Regex.State.Grows.run run).kept.mem (Regex.names_of_foldlM_named allowed plain group).2
  have opened : ['^'].foldlM (Regex.State.step .plain) Regex.State.start = some (.anchored .plain) := rfl
  obtain ⟨last, whole, -⟩ := Option.bind_eq_some_iff.1 read
  have split : Regex.anchored (templateRegex template (Regex.namedGroup valueGroup value)) =
      ['^'] ++ ((partOfTemplateRegex front ++ (Regex.namedGroup valueGroup value ++
        partOfTemplateRegex middle)) ++ (Regex.namedGroup valueGroup value ++ (later ++ ['$']))) := by
    simp [Regex.anchored, text]
  rw [split, Regex.State.foldlM_append opened, Regex.State.foldlM_append run,
    List.foldlM_append] at whole
  obtain ⟨m', group, -⟩ := Option.bind_eq_some_iff.1 whole
  have plain : (m.settled .plain).mode = .plain := by rw [settled]; rfl
  exact (Regex.names_of_foldlM_named allowed plain group).1 used

/-- Only a template with one value at most has a phrase, and that is the phrase of its entry. -/
theorem isOf_of_phrase (h : Embeds .plain value L) {p : Phrase}
    (made : PhraseSet.phrase value e = .ok p) :
    (templateParts e.template).length ≤ 2 ∧ p.IsOf e L := by
  have few : (templateParts e.template).length ≤ 2 := by
    unfold PhraseSet.phrase at made
    split at made
    · rename_i read
      exact few_of_read? h read
    · cases made
  obtain ⟨p', made', own⟩ := exists_phrase h few
  rw [made] at made'
  cases made'
  exact ⟨few, own⟩

/-- More values, more phrases. -/
theorem Phrased.mono (h : ∀ v ∈ L, v ∈ K) (written : Phrased L parts t v?) : Phrased K parts t v? := by
  cases written with
  | bare same => exact .bare same
  | taking front value back => exact .taking front (h _ value) back

namespace PhraseSet

/-- The phrases of a set are those of its entries. -/
theorem forall₂_isOf_of_ofEntries (h : Embeds .plain value L) (made : ofEntries entries value = .ok s) :
    (∀ e ∈ entries, (templateParts e.template).length ≤ 2) ∧
      List.Forall₂ (fun e (p : Phrase) => p.IsOf e L) entries s.phrases := by
  have each := (forall₂_of_mapM (mapM_phrase_of_ofEntries made).1).imp fun _ _ => isOf_of_phrase h
  refine ⟨fun e he => ?_, each.imp fun _ _ => And.right⟩
  obtain ⟨i, inside, rfl⟩ := List.mem_iff_getElem.1 he
  exact (each.get inside (each.length_eq ▸ inside)).1

/-- In any dialect that reads the values, the regex of a set takes what is written as one of its
entries. -/
theorem takes_regex_iff (h : Embeds d value K) (ne : entries ≠ [])
    (few : ∀ e ∈ entries, (templateParts e.template).length ≤ 2)
    (made : ofEntries entries value = .ok s) :
    Takes d s.regex t ↔ ∃ e ∈ entries, ∃ v?, Phrased K (templateParts e.template) t v? := by
  have body := writesBody_alternatives ne fun e he => writes_template h (few e he)
  rw [(mapM_phrase_of_ofEntries made).2, Regex.takes_iff body.writes_grouped, mem_sum_iff]
  simp only [List.mem_map, exists_exists_and_eq_and]
  rfl

/-- For a set that can be made, with values that look at nothing but what they take: what the regex of
the set takes is resolved, once the blanks at its ends are gone, and nothing else is resolved. The regex
may be read in any dialect, as far as the values are the same in it. -/
theorem resolves_iff_takes_trimmed (ne : entries ≠ []) (plain : isLocalIn .plain value)
    (made : ofEntries entries value = .ok s) (own : isLocalIn d value) :
    ((∀ v, Takes d value v → Takes .plain value v) →
      ∀ t : Text, Takes d s.regex t.trim → (s.resolve? t).isSome) ∧
    ((∀ v, Takes .plain value v → Takes d value v) →
      ∀ t : Text, (s.resolve? t).isSome → Takes d s.regex t.trim) := by
  have values := Regex.embeds_of_isLocalIn plain
  obtain ⟨few, each⟩ := forall₂_isOf_of_ofEntries values made
  have takes (t : Text) := takes_regex_iff (t := t) (Regex.embeds_of_isLocalIn own) ne few made
  constructor
  · intro within t taken
    obtain ⟨e, he, v?, written⟩ := (takes _).1 taken
    obtain ⟨e', -, v?', resolved, -⟩ :=
      exists_resolve?_of_forall₂ each ⟨e, he, v?, written.mono within⟩
    rw [resolved]
    rfl
  · intro within t resolved
    obtain ⟨e, he, v?, written⟩ := phrased_of_resolve? each resolved
    exact (takes _).2 ⟨e, he, v?, written.mono within⟩

/-- Numbers mean the same in both dialects. So whatever the regex of the set takes is resolved, as
`is  5` is by a template with one blank. -/
theorem resolves_iff_takes_trimmed_of_number :
    ∃ s, ofEntries [⟨"equal", "is {value}".toList⟩, ⟨"any", " ".toList⟩] ['\\', 'd', '+'] = .ok s ∧
      (s.resolve? "\tis  5 ".toList).isSome ∧
      ∀ t : Text, (s.resolve? t).isSome ↔ Takes .extended s.regex t.trim := by
  obtain ⟨s, made, taken⟩ := exists_ok
    (x := ofEntries [⟨"equal", "is {value}".toList⟩, ⟨"any", " ".toList⟩] ['\\', 'd', '+'])
    (p := fun s => (Regex.read? .extended (Regex.anchored (Regex.grouped s.regex))).any
      (Regex.isMatch · "is  5".toList))
    (by decide +kernel)
  obtain ⟨r, read, matched⟩ := (Option.any_eq_true _ _).1 taken
  have same : Regex.read? .plain (Regex.anchored (Regex.grouped ['\\', 'd', '+'])) =
      Regex.read? .extended (Regex.anchored (Regex.grouped ['\\', 'd', '+'])) := by decide +kernel
  obtain ⟨sound, complete⟩ := resolves_iff_takes_trimmed (d := .extended) (by decide)
    (by decide +kernel) made (by decide +kernel)
  have sound := sound fun v => by
    simp only [Takes, same]
    exact id
  have complete := complete fun v => by
    simp only [Takes, same]
    exact id
  exact ⟨s, made, sound _ ⟨r, read, matched⟩, fun t => ⟨complete t, sound t⟩⟩

/-- Blanks at the ends of a template are asked for by its phrase, and are gone before it is tried. -/
theorem exists_taken_and_not_resolved :
    ∃ s, ofEntries [⟨"equal", " padded {value} ".toList⟩] ['\\', 'd', '+'] = .ok s ∧
      isLocalIn .plain ['\\', 'd', '+'] ∧ isLocalIn .extended ['\\', 'd', '+'] ∧
      Takes .extended s.regex " padded 5 ".toList ∧ s.resolve? " padded 5 ".toList = none := by
  obtain ⟨s, made, ok⟩ := exists_ok
    (x := ofEntries [⟨"equal", " padded {value} ".toList⟩] ['\\', 'd', '+'])
    (p := fun s => (Regex.read? .extended (Regex.anchored (Regex.grouped s.regex))).any
      (Regex.isMatch · " padded 5 ".toList) && s.resolve? " padded 5 ".toList == none)
    (by decide +kernel)
  obtain ⟨taken, unresolved⟩ := Bool.and_eq_true_iff.1 ok
  obtain ⟨r, read, matched⟩ := (Option.any_eq_true _ _).1 taken
  exact ⟨s, made, by decide +kernel, by decide +kernel, ⟨r, read, matched⟩, eq_of_beq unresolved⟩

end PhraseSet

end StepMatch
