import StepMatch.Proofs.Pattern.Fragments
import StepMatch.Proofs.Assertion.Templates
import StepMatch.Matcher.Match

/-!
# What a piece of a matcher takes

Each piece of a matcher has a regex of its own, and takes the texts that this regex accepts. Types
and factories come from outside; what is asked of them is that their regexes look at nothing but
the text that they take. Then a piece takes in a sentence what it takes alone.
-/

namespace StepMatch

open Regex (Writes WritesBody Dialect isLocalText Accepts accepted)

variable {l : Locale} {d : Dialect} {value : Text}

theorem exists_writes_joinWith {ts : List Text} (each : ∀ t ∈ ts, ∃ L, Writes false d t L)
    (separator : ∃ L, Writes false d value L) :
    ∃ L, Writes false d (Text.joinWith value ts) L := by
  obtain ⟨M, hv⟩ := separator
  induction ts with
  | nil => exact ⟨_, .nil⟩
  | cons t ts ih =>
    obtain ⟨⟨L, ht⟩, each⟩ := List.forall_mem_cons.1 each
    obtain ⟨K, hts⟩ := ih each
    obtain _ | ⟨u, us⟩ := ts
    · exact ⟨L, by simpa [Text.joinWith] using ht⟩
    · exact ⟨_, by simpa [Text.joinWith] using ht.append (hv.append hts)⟩

theorem exists_writes_template (template : Text) (h : ∃ L, Writes false d value L) :
    ∃ L, Writes false d (templateRegex template value) L :=
  exists_writes_joinWith (fun t ht => by
    obtain ⟨part, -, rfl⟩ := List.mem_map.1 ht
    exact ⟨_, writes_partOfTemplate d part⟩) h

theorem exists_writesBody_alternatives {ts : List Text}
    (each : ∀ t ∈ ts, ∃ L, Writes false d t L) :
    ∃ L, WritesBody false d (Regex.alternatives ts) L := by
  rw [Regex.alternatives]
  induction ts with
  | nil => exact ⟨_, Writes.nil.body⟩
  | cons t ts ih =>
    obtain ⟨⟨L, ht⟩, each⟩ := List.forall_mem_cons.1 each
    obtain ⟨M, hts⟩ := ih each
    obtain _ | ⟨u, us⟩ := ts
    · exact ⟨L, by simpa [Text.joinWith] using ht.body⟩
    · exact ⟨_, by simpa [Text.joinWith] using ht.body.bar hts⟩

/-- Phrases for values with a local regex have a local regex. -/
theorem PhraseSet.isLocalText_regex {entries : List PhraseEntry} {phrases : PhraseSet}
    (h : PhraseSet.ofEntries entries value = .ok phrases) (loc : isLocalText value) :
    isLocalText phrases.regex := by
  obtain ⟨_, -, rfl⟩ := ok_of_map h
  have each : ∀ t ∈ entries.map fun e => templateRegex e.template (Regex.grouped value),
      ∃ L, Writes false .extended t L := fun t ht => by
    obtain ⟨e, -, rfl⟩ := List.mem_map.1 ht
    exact exists_writes_template e.template ⟨_, Regex.writes_grouped_accepted loc⟩
  obtain ⟨_, body⟩ := exists_writesBody_alternatives each
  exact body.isLocalText_and_accepted.1

/-- In the locale, the regex of each data type looks at nothing but what it takes, fixes no choice
and names nothing. -/
def DataTypes.AreLocal (types : DataTypes) (l : Locale) : Prop :=
  ∀ name type, types.find name = .ok type → isLocalText (type.regex l)

/-- In the locale, each factory has phrases for values with such a regex. -/
def AssertionFactories.AreLocal (factories : AssertionFactories) (l : Locale) : Prop :=
  ∀ name factory, factories.find name = .ok factory → ∃ entries value phrases,
    factory.phrases l = .ok phrases ∧ PhraseSet.ofEntries entries value = .ok phrases ∧
      isLocalText value

theorem Registry.get?_of_find {α : Type} [Named α] {r : Registry α} {name : String} {a : α}
    (h : r.find name = .ok a) : r.get? name = some a := by
  rw [Registry.find] at h
  split at h
  · cases h
    assumption
  · cases h

/-- What a registry finds was there or has been registered. -/
theorem Registry.find_register {α : Type} [Named α] {r : Registry α} {name : String} {a b : α}
    (h : (r.register b).find name = .ok a) : a = b ∨ r.find name = .ok a := by
  have found := Registry.get?_of_find h
  rw [Registry.get?_register] at found
  split at found
  · exact .inl (Option.some.inj found).symm
  · exact .inr (by rw [Registry.find, found])

/-- What is found after several things have been registered is one of these or was there. -/
theorem Registry.mem_of_find_registerAll {α : Type} [Named α] {r : Registry α} {name : String}
    {a : α} {as : List α} (h : (r.registerAll as).find name = .ok a) :
    a ∈ as ∨ r.find name = .ok a := by
  induction as generalizing r with
  | nil => exact .inr h
  | cons b as ih =>
    obtain later | found := ih h
    · exact .inl (List.mem_cons_of_mem b later)
    · obtain rfl | found := Registry.find_register found
      · exact .inl List.mem_cons_self
      · exact .inr found

theorem DataTypes.AreLocal.register {types : DataTypes} (h : types.AreLocal l) {type : DataType}
    (loc : isLocalText (type.regex l)) : AreLocal (Registry.register types type) l :=
  fun name _ found => by
    obtain rfl | found := Registry.find_register found
    · exact loc
    · exact h name _ found

namespace Piece

/-- The piece, by itself, takes the text. An argument slot takes a reference to a variable too. -/
def Takes (l : Locale) : Piece → Text → Prop
  | .pattern p, w => Accepts p.regex w
  | .argument _ type, w => Accepts variableRegex w ∨ Accepts (type.regex l) w
  | .assertion factory, w =>
    ∃ phrases, factory.phrases l = .ok phrases ∧ Accepts phrases.regex w

/-- The texts that a piece takes. -/
def language (l : Locale) (p : Piece) : TextLanguage := {w | p.Takes l w}

/-- The piece has a regex in the locale, and that takes in a row what the piece takes alone. -/
def IsReadable (l : Locale) (p : Piece) : Prop := ∃ own, p.body l = .ok own ∧
  if p.isSlot then WritesBody false .extended own (p.language l)
  else Writes false .extended own (p.language l)

variable {p : Pattern} {binding : String} {type : DataType} {factory : AssertionFactory}
  {types : DataTypes} {factories : AssertionFactories}

theorem writesBody_variableRegex :
    WritesBody false .extended variableRegex (accepted variableRegex) := by
  let items : List Regex.Item := [⟨.chars false (.single '\x7d'), true⟩,
    ⟨.repeated true 1 none (.chars false (.complement (.union (.union (.single '\x7b')
      (.single '\x7d')) .blank))), true⟩,
    ⟨.chars false (.single '\x7b'), true⟩, ⟨.chars false (.single '$'), true⟩]
  have writes : ∃ L, Writes false .extended variableRegex L := by
    refine ⟨(items.reverse.map fun i => i.regex.language).prod, fun s plain fold => ?_⟩
    obtain ⟨mode, ⟨kind, _, alternatives, before, target⟩, outer, names⟩ := s
    cases plain
    cases fold
    exact ⟨_, items, .piece, names, rfl, rfl, by decide, by decide, rfl, by simp⟩
  obtain ⟨L, writes⟩ := writes
  exact writes.body.isLocalText_and_accepted.2 ▸ writes.body

/-- A pattern that is the text of a row. -/
theorem isReadable_pattern (h : (Fragment.pattern p).IsRow) : (pattern p).IsReadable l := by
  obtain ⟨ps, -, e⟩ := h
  have writes := (Pattern.writes_row .extended ps).loosen
  rw [← e] at writes
  refine ⟨p.regex, rfl, ?_⟩
  have same : (pattern p).language l = Pattern.rowLanguage ps :=
    writes.body.isLocalText_and_accepted.2
  rw [same]
  exact writes

/-- A slot for a value takes a reference to a variable or what its type accepts. -/
theorem isReadable_argument (loc : isLocalText (type.regex l)) :
    (argument binding type).IsReadable l := by
  refine ⟨_, rfl, ?_⟩
  have body : WritesBody false .extended _ _ :=
    writesBody_variableRegex.bar (Regex.writes_grouped_accepted loc).body
  have text : Regex.alternatives [variableRegex, Regex.grouped (type.regex l)] =
      variableRegex ++ '|' :: Regex.grouped (type.regex l) := by
    simp [Regex.alternatives, Text.joinWith]
  rw [text]
  exact body

/-- A slot for an assertion takes what its phrases accept. -/
theorem isReadable_assertion {phrases : PhraseSet} (found : factory.phrases l = .ok phrases)
    (loc : isLocalText phrases.regex) : (assertion factory).IsReadable l := by
  refine ⟨Regex.grouped phrases.regex, by rw [body, found], ?_⟩
  have same : (assertion factory).language l = accepted phrases.regex := by
    refine Language.ext fun w => ?_
    constructor
    · rintro ⟨other, found', accepts⟩
      obtain rfl := Except.ok.inj (found.symm.trans found')
      exact accepts
    · exact fun accepts => ⟨phrases, found, accepts⟩
  rw [same]
  exact (Regex.writes_grouped_accepted loc).body

/-- What fragments have and binding turns into a property of pieces, all pieces have. -/
theorem forall_of_binds {fragments : List Fragment} {pieces : List Piece}
    (binds : List.Forall₂ (fun f piece => bind types factories f = .ok piece) fragments pieces)
    {P : Fragment → Prop} {Q : Piece → Prop} (each : ∀ f ∈ fragments, P f)
    (step : ∀ f piece, P f → bind types factories f = .ok piece → Q piece) :
    ∀ piece ∈ pieces, Q piece := by
  induction binds with
  | nil => simp
  | cons bound _ ih =>
    obtain ⟨own, each⟩ := List.forall_mem_cons.1 each
    exact List.forall_mem_cons.2 ⟨step _ _ own bound, ih each⟩

end Piece

/-- The pieces of a matcher are what the fragments of its expression are bound to. -/
theorem Matcher.exists_fragments {types : DataTypes} {factories : AssertionFactories}
    {expression : Text} {m : Matcher} (made : Matcher.ofExpression types factories expression = .ok m) :
    ∃ n fragments, Node.parse expression = .ok n ∧ Fragment.ofNode n = .ok fragments ∧
      List.Forall₂ (fun f piece => Piece.bind types factories f = .ok piece) fragments m.pieces := by
  rw [Matcher.ofExpression] at made
  split at made
  · cases made
  · rename_i n parsed
    split at made
    · cases made
    · rename_i fragments found
      obtain ⟨pieces, bound, rfl⟩ := ok_of_map made
      exact ⟨n, fragments, parsed, found, forall₂_of_mapM bound⟩

end StepMatch
