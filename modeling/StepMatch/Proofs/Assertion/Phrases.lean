import StepMatch.Proofs.Assertion.Templates
import StepMatch.Proofs.Outcomes

/-!
# Resolving phrases

What stands in an assertion slot was taken by the regex of a whole set of phrases, and is then tried with
each phrase by itself, without the blanks at its ends. Nothing is lost on the way: a text that the set
takes is written as one of its phrases, and so the first phrase that fits is found, with a value if that
phrase has one.
-/

namespace StepMatch

open Regex (WritesBody Accepts)

variable {L : TextLanguage} {value t w : Text} {v? : Option Text} {e : PhraseEntry}
  {entries : List PhraseEntry}

/-- What is remembered of a text that is cut along the fields of a template. -/
theorem phrased_of_cut {template : Text} (few : (templateParts template).length ≤ 2) {ws : List Text}
    (cut : Regex.Cut (templateFields L (templateParts template)) ws) :
    ∃ v? : Option Text, Phrased L (templateParts template) ws.flatten v? ∧
      Regex.cutCaptures (templateFields L (templateParts template)) ws =
        v?.toList.map (valueGroup, ·) := by
  obtain ⟨part, found⟩ | ⟨before, after, found⟩ := templateParts_cases few
  · rw [found, templateFields] at cut
    cases cut with
    | cons own rest =>
      cases rest
      rw [found, List.flatten_cons, List.flatten_nil, List.append_nil]
      exact ⟨none, .bare (Pattern.mem_literalGroup_iff.1 own), rfl⟩
  · rw [found, templateFields] at cut
    cases cut with
    | @cons _ t _ _ front rest =>
      cases rest with
      | @cons _ v _ _ own rest =>
        cases rest with
        | @cons _ u _ _ back rest =>
          cases rest
          have written : Phrased L [before, after] (t ++ (v ++ u)) (some v) :=
            .taking (Pattern.mem_literalGroup_iff.1 front) own (Pattern.mem_literalGroup_iff.1 back)
          rw [found]
          exact ⟨some v, by simpa using written, rfl⟩

/-- A text that is written as the parts of a template can be cut along its fields. -/
theorem exists_cut_of_phrased {parts : List Text} (written : Phrased L parts t v?) :
    ∃ ws, Regex.Cut (templateFields L parts) ws ∧ ws.flatten = t := by
  cases written with
  | bare same =>
    exact ⟨[t], .cons (Pattern.mem_literalGroup_iff.2 same) .nil, by simp⟩
  | @taking _ _ t v u front value back =>
    exact ⟨[t, v, u], .cons (Pattern.mem_literalGroup_iff.2 front)
      (.cons value (.cons (Pattern.mem_literalGroup_iff.2 back) .nil)), by simp⟩

/-- The phrase of an entry: it fits the texts that are written as the template says, and finds the
value. -/
structure Phrase.IsOf (p : Phrase) (e : PhraseEntry) (L : TextLanguage) : Prop where
  template : p.template = e.template
  sound {t : Text} {found : String × Option Text} : p.resolve? t = some found →
    found.1 = e.key ∧ Phrased L (templateParts e.template) t found.2
  complete {t : Text} {v? : Option Text} : Phrased L (templateParts e.template) t v? →
    (p.resolve? t).isSome

theorem exists_phrase (h : Regex.Embeds .plain value L) (few : (templateParts e.template).length ≤ 2) :
    ∃ p, PhraseSet.phrase value e = .ok p ∧ p.IsOf e L := by
  obtain ⟨items, read, layout⟩ := read?_template h few
  refine ⟨{ e with regex := Regex.between items }, by rw [PhraseSet.phrase, read], rfl, ?_, ?_⟩
  · intro t found resolved
    obtain ⟨o, search, rfl⟩ := Option.map_eq_some_iff.1 resolved
    obtain ⟨ws, cut, rfl, captures⟩ := (Regex.search_between layout t).1 o search
    obtain ⟨v?, written, remembered⟩ := phrased_of_cut few cut
    have group : o.group? valueGroup = v? := by
      rw [Regex.Outcome.group?, captures, remembered]
      cases v? <;> simp
    exact ⟨rfl, group.symm ▸ written⟩
  · intro t v? written
    obtain ⟨ws, cut, whole⟩ := exists_cut_of_phrased written
    rw [Phrase.resolve?, Option.isSome_map, Option.isSome_iff_ne_none]
    exact fun none => (Regex.search_between layout t).2 none ws cut whole

/-- A text is in a sum of languages if it is in one of them. -/
theorem mem_sum_iff {Ls : List TextLanguage} : w ∈ Ls.sum ↔ ∃ L ∈ Ls, w ∈ L := by
  induction Ls with
  | nil => simp [Language.notMem_zero]
  | cons L Ls ih => rw [List.sum_cons, Language.mem_add, ih, List.exists_mem_cons_iff]

/-- Alternatives take what any of them takes. -/
theorem writesBody_alternatives {α : Type} {d : Regex.Dialect} {f : α → Text}
    {K : α → TextLanguage} {as : List α} (ne : as ≠ [])
    (each : ∀ a ∈ as, Regex.Writes false d (f a) (K a)) :
    WritesBody false d (Regex.alternatives (as.map f)) (as.map K).sum := by
  obtain ⟨a, as, rfl⟩ := List.exists_cons_of_ne_nil ne
  clear ne
  rw [Regex.alternatives]
  induction as generalizing a with
  | nil => simpa [Text.joinWith] using (each a List.mem_cons_self).body
  | cons b bs ih =>
    obtain ⟨own, rest⟩ := List.forall_mem_cons.1 each
    simpa [Text.joinWith] using own.body.bar (ih b rest)

namespace PhraseSet

/-- The set of some entries: its regex takes what is written as any of them, and each of them has its
phrase. -/
structure IsOf (s : PhraseSet) (entries : List PhraseEntry) (L : TextLanguage) : Prop where
  phrases : List.Forall₂ (fun e (p : Phrase) => p.IsOf e L) entries s.phrases
  regex : WritesBody false .extended s.regex
    (entries.map fun e => phrasedLanguage L (templateParts e.template)).sum

theorem exists_ofEntries (h : Regex.IsShared value L) (ne : entries ≠ [])
    (few : ∀ e ∈ entries, (templateParts e.template).length ≤ 2) :
    ∃ s, ofEntries entries value = .ok s ∧ s.IsOf entries L := by
  obtain ⟨phrases, made, each⟩ := exists_mapM fun e he =>
    exists_phrase (h .plain).embeds (few e he)
  refine ⟨_, by rw [ofEntries, made]; rfl, each, ?_⟩
  exact writesBody_alternatives ne fun e he => writes_template (h .extended).embeds (few e he)

variable {s : PhraseSet}

/-- What a set is made of. -/
theorem mapM_phrase_of_ofEntries (made : ofEntries entries value = .ok s) :
    entries.mapM (phrase value) = .ok s.phrases ∧ s.regex = Regex.alternatives
      (entries.map fun e => templateRegex e.template (Regex.grouped value)) := by
  obtain ⟨phrases, mapped, same⟩ := ok_of_map made
  rw [← same]
  exact ⟨mapped, rfl⟩

/-- Each phrase is that of an entry. -/
theorem mem_of_mem_phrases (made : ofEntries entries value = .ok s) {p : Phrase}
    (hp : p ∈ s.phrases) : p.toPhraseEntry ∈ entries := by
  have each := forall₂_of_mapM (mapM_phrase_of_ofEntries made).1
  obtain ⟨i, inside, rfl⟩ := List.mem_iff_getElem.1 hp
  have behind : i < entries.length := each.length_eq ▸ inside
  have own : phrase value entries[i] = .ok s.phrases[i] := each.get behind inside
  unfold phrase at own
  split at own
  · have same : s.phrases[i].toPhraseEntry = entries[i] := by rw [← Except.ok.inj own]
    rw [same]
    exact List.getElem_mem behind
  · cases own

theorem IsOf.isLocalText (h : s.IsOf entries L) : Regex.isLocalText s.regex := h.regex.isLocalText_and_accepted.1

/-- The regex of a set accepts what is written as one of its entries. -/
theorem IsOf.accepts_iff (h : s.IsOf entries L) :
    Accepts s.regex t ↔ ∃ e ∈ entries, ∃ v?, Phrased L (templateParts e.template) t v? := by
  change t ∈ Regex.accepted s.regex ↔ _
  rw [h.regex.isLocalText_and_accepted.2, mem_sum_iff]
  simp only [List.mem_map, exists_exists_and_eq_and]
  rfl

/-- A text that is written as an entry, blanks at its ends aside, is resolved by the first phrase that
fits. -/
theorem exists_resolve?_of_forall₂
    (each : List.Forall₂ (fun e (p : Phrase) => p.IsOf e L) entries s.phrases)
    (written : ∃ e ∈ entries, ∃ v?, Phrased L (templateParts e.template) t.trim v?) :
    ∃ e ∈ entries, ∃ v?, s.resolve? t = some (e.key, v?) ∧
      Phrased L (templateParts e.template) t.trim v? := by
  rw [resolve?]
  obtain ⟨phrases, _⟩ := s
  change List.Forall₂ _ entries phrases at each
  induction each with
  | nil => simp at written
  | @cons e p entries phrases own _ ih =>
    rw [List.findSome?_cons]
    cases resolved : p.resolve? t.trim with
    | some found =>
      obtain ⟨key, fits⟩ := own.sound resolved
      exact ⟨e, List.mem_cons_self, found.2, by rw [← key], fits⟩
    | none =>
      have later : ∃ e ∈ entries, ∃ v?, Phrased L (templateParts e.template) t.trim v? := by
        obtain ⟨e', he, v?, fits⟩ := written
        obtain rfl | he := List.mem_cons.1 he
        · simpa [resolved] using own.complete fits
        · exact ⟨e', he, v?, fits⟩
      obtain ⟨e', he, rest⟩ := ih later
      exact ⟨e', List.mem_cons_of_mem e he, rest⟩

theorem IsOf.exists_resolve? (h : s.IsOf entries L) (trimmed : t.trim = t)
    (written : ∃ e ∈ entries, ∃ v?, Phrased L (templateParts e.template) t v?) :
    ∃ e ∈ entries, ∃ v?, s.resolve? t = some (e.key, v?) ∧
      Phrased L (templateParts e.template) t v? := by
  have found := exists_resolve?_of_forall₂ h.phrases (t := t)
  rw [trimmed] at found
  exact found written

/-- What is resolved is written as one of the entries, blanks at its ends aside. -/
theorem phrased_of_resolve?
    (each : List.Forall₂ (fun e (p : Phrase) => p.IsOf e L) entries s.phrases)
    (resolved : (s.resolve? t).isSome) :
    ∃ e ∈ entries, ∃ v?, Phrased L (templateParts e.template) t.trim v? := by
  obtain ⟨found, resolved⟩ := Option.isSome_iff_exists.1 resolved
  obtain ⟨p, hp, own⟩ := List.exists_of_findSome?_eq_some resolved
  obtain ⟨i, inside, rfl⟩ := List.mem_iff_getElem.1 hp
  have behind : i < entries.length := each.length_eq ▸ inside
  have isOf := each.get behind inside
  exact ⟨entries[i], List.getElem_mem behind, found.2, (isOf.sound own).2⟩

end PhraseSet

namespace PhraseEntry

/-- Whether the phrase is written without blanks at its ends. If it takes a value, then nothing comes
after that. -/
def isTrim (e : PhraseEntry) : Bool :=
  match templateParts e.template with
  | [part] => !part.startsBlank && !part.endsBlank
  | [before, after] => !before.isEmpty && !before.startsBlank && after.isEmpty
  | _ => false

/-- Whether the phrase takes a value. -/
def takesValue (e : PhraseEntry) : Bool := (templateParts e.template).length == 2

theorem few_of_isTrim (h : e.isTrim) : (templateParts e.template).length ≤ 2 := by
  rw [isTrim] at h
  split at h
  · rename_i found
    simp [found]
  · rename_i found
    simp [found]
  · cases h

/-- A phrase that takes a value has one wherever it is written. -/
theorem exists_value_of_phrased (h : e.takesValue)
    (written : Phrased L (templateParts e.template) t v?) : ∃ v, v? = some v := by
  rw [takesValue] at h
  generalize templateParts e.template = parts at h written
  cases written with
  | bare => cases h
  | taking => exact ⟨_, rfl⟩

/-- Without blanks at the ends of the phrase or of values, there are none at the ends of the text. -/
theorem edges_of_phrased (h : e.isTrim) (closes : ∀ v ∈ L, v ≠ [] ∧ Text.endsBlank v = false)
    (written : Phrased L (templateParts e.template) t v?) :
    t.startsBlank = false ∧ t.endsBlank = false := by
  rw [isTrim] at h
  generalize templateParts e.template = parts at h written
  cases written with
  | bare same =>
    rw [same.startsBlank_eq, same.endsBlank_eq]
    simpa using h
  | @taking before after t v u front value back =>
    simp only [Bool.and_eq_true, Bool.not_eq_true', List.isEmpty_iff, List.isEmpty_eq_false_iff] at h
    obtain ⟨⟨ne, opens⟩, rfl⟩ := h
    obtain rfl := back.eq_nil_iff.2 rfl
    obtain ⟨fills, ends⟩ := closes v value
    rw [← front.startsBlank_eq] at opens
    rw [ne_eq, ← front.eq_nil_iff] at ne
    obtain ⟨c, t, rfl⟩ := List.exists_cons_of_ne_nil ne
    rw [List.append_nil]
    exact ⟨opens, Regex.endsBlank_append ends fun none => absurd none fills⟩

theorem trim_of_phrased (h : e.isTrim) (closes : ∀ v ∈ L, v ≠ [] ∧ Text.endsBlank v = false)
    (written : Phrased L (templateParts e.template) t v?) : t.trim = t := by
  obtain ⟨opens, ends⟩ := edges_of_phrased h closes written
  exact Text.trim_of_ink opens ends

end PhraseEntry
end StepMatch
