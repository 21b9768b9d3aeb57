import StepMatch.Proofs.Pattern.Ink
import StepMatch.Proofs.Text.Squeeze

/-!
# Spellings

Without wildcards, an expression stands for finitely many texts, and its pattern accepts finitely
many too, if texts that differ in the amount of white space alone are counted once. Both are listed
here, and so whether merging keeps words apart can be checked: each spelling of the pattern has to
be one of the readings, up to white space.
-/

namespace StepMatch

/-- Each of the first texts with each of the second ones after it. -/
def concatEach (ts us : List Text) : List Text := ts.flatMap fun t => us.map (t ++ ·)

theorem mem_concatEach {ts us : List Text} {w : Text} :
    w ∈ concatEach ts us ↔ ∃ t ∈ ts, ∃ u ∈ us, t ++ u = w := by
  simp [concatEach]

namespace Node

mutual

/-- Whether a wildcard occurs anywhere in the tree. -/
def containsWildcard : Node → Bool
  | .sequence children => anyWildcard children
  | .choice _ alternatives => anyWildcard alternatives
  | .optional child => containsWildcard child
  | .negation _ child => containsWildcard child
  | .wildcard => true
  | .argument .. | .assertion .. | .literal _ => false

/-- Whether a wildcard occurs in any of the trees. -/
def anyWildcard : List Node → Bool
  | [] => false
  | n :: ns => containsWildcard n || anyWildcard ns

end

mutual

/-- The texts that a tree without wildcards stands for. -/
def readings : Node → List Text
  | .sequence children => concatReadings children
  | .literal t => [t]
  | .optional child => [] :: readings child
  | .choice _ alternatives => choiceReadings alternatives
  | .negation .. | .wildcard | .argument .. | .assertion .. => []

/-- The texts that trees stand for one after the other. -/
def concatReadings : List Node → List Text
  | [] => [[]]
  | n :: ns => concatEach (readings n) (concatReadings ns)

/-- The texts that any of the trees stands for. -/
def choiceReadings : List Node → List Text
  | [] => []
  | n :: ns => readings n ++ choiceReadings ns

end

variable {n : Node} {ns : List Node} {s : Text}

theorem anyWildcard_eq_false : anyWildcard ns = false ↔ ∀ n ∈ ns, n.containsWildcard = false := by
  induction ns with
  | nil => simp [anyWildcard]
  | cons n ns ih => simp [anyWildcard, ih]

theorem mem_concatReadings_iff (each : ∀ n ∈ ns, ∀ s, s ∈ n.readings ↔ s ∈ n.realisations) :
    s ∈ concatReadings ns ↔ s ∈ concatRealisations ns := by
  induction ns generalizing s with
  | nil => simp [concatReadings, concatRealisations, Language.mem_one]
  | cons n ns ih =>
    obtain ⟨head, each⟩ := List.forall_mem_cons.1 each
    have later : ∀ s, s ∈ concatReadings ns ↔ s ∈ concatRealisations ns := fun s => ih each
    simp only [concatReadings, concatRealisations, mem_concatEach, Language.mem_mul, head, later]

theorem mem_choiceReadings_iff (each : ∀ n ∈ ns, ∀ s, s ∈ n.readings ↔ s ∈ n.realisations) :
    s ∈ choiceReadings ns ↔ s ∈ choiceRealisations ns := by
  induction ns with
  | nil => simp [choiceReadings, choiceRealisations, Language.notMem_zero]
  | cons n ns ih =>
    obtain ⟨head, each⟩ := List.forall_mem_cons.1 each
    rw [choiceReadings, choiceRealisations, List.mem_append, Language.mem_add, head, ih each]

/-- The readings of a tree are what it stands for. -/
theorem mem_readings_iff (h : n.Plain) (free : n.containsWildcard = false) (s : Text) :
    s ∈ n.readings ↔ s ∈ n.realisations := by
  induction h generalizing s with
  | sequence _ _ ih =>
    rw [containsWildcard, anyWildcard_eq_false] at free
    rw [readings, realisations]
    exact mem_concatReadings_iff fun n hn => ih n hn (free n hn)
  | literal => exact List.mem_singleton
  | optional _ ih =>
    rw [containsWildcard] at free
    rw [readings, realisations, List.mem_cons, Language.mem_add, Language.mem_one, ih free]
  | choice _ _ ih =>
    rw [containsWildcard, anyWildcard_eq_false] at free
    rw [readings, realisations]
    exact mem_choiceReadings_iff fun n hn => ih n hn (free n hn)
  | wildcard => cases free

end Node

namespace Pattern

open Regex (spaces)

/-- The listed texts are in the language, and they are all that is in it up to the amount of white
space. -/
structure Represents (ts : List Text) (L : TextLanguage) : Prop where
  sound : ∀ s ∈ ts, s ∈ L
  complete : ∀ t ∈ L, ∃ s ∈ ts, Text.Alike t s

namespace Represents

variable {ts us : List Text} {L M : TextLanguage}

theorem nil : Represents [] 0 := ⟨by simp, fun _ h => h.elim⟩

theorem singleton (t : Text) : Represents [t] {t} :=
  ⟨fun _ hs => List.mem_singleton.1 hs, fun _ hu => ⟨t, List.mem_singleton_self t, by
    obtain rfl := hu
    exact .refl _⟩⟩

theorem one : Represents [[]] 1 := singleton []

theorem add (h : Represents ts L) (h' : Represents us M) : Represents (ts ++ us) (L + M) := by
  constructor
  · intro s hs
    rw [Language.mem_add]
    exact (List.mem_append.1 hs).imp (h.sound s) (h'.sound s)
  · intro t ht
    obtain ht | ht := (Language.mem_add L M t).1 ht
    · obtain ⟨s, hs, same⟩ := h.complete t ht
      exact ⟨s, List.mem_append_left us hs, same⟩
    · obtain ⟨s, hs, same⟩ := h'.complete t ht
      exact ⟨s, List.mem_append_right ts hs, same⟩

theorem mul (h : Represents ts L) (h' : Represents us M) : Represents (concatEach ts us) (L * M) := by
  constructor
  · intro w hw
    obtain ⟨t, ht, u, hu, rfl⟩ := mem_concatEach.1 hw
    exact Language.mem_mul.2 ⟨t, h.sound t ht, u, h'.sound u hu, rfl⟩
  · intro w hw
    obtain ⟨t, ht, u, hu, rfl⟩ := Language.mem_mul.1 hw
    obtain ⟨t', ht', same⟩ := h.complete t ht
    obtain ⟨u', hu', same'⟩ := h'.complete u hu
    exact ⟨t' ++ u', mem_concatEach.2 ⟨t', ht', u', hu', rfl⟩, same.append same'⟩

theorem optional (h : Represents ts L) : Represents ([] :: ts) (1 + L) := one.add h

theorem blanks : Represents [[' ']] spaces := by
  have space : [' '] ∈ spaces := ⟨by simp, by simp [isBlank]⟩
  constructor
  · intro s hs
    rwa [List.mem_singleton.1 hs]
  · intro t ht
    exact ⟨[' '], List.mem_singleton_self _, .of_blanks ht.2 space.2 ht.1 space.1⟩

theorem slack : Represents [[], [' ']] Regex.slack := by
  constructor
  · intro s hs c hc
    obtain rfl | hs := List.mem_cons.1 hs
    · cases hc
    · rw [List.mem_singleton.1 hs, List.mem_singleton] at hc
      rw [hc]
      rfl
  · intro t ht
    by_cases ne : t = []
    · exact ⟨[], List.mem_cons_self, ne ▸ .refl _⟩
    · obtain ⟨s, hs, same⟩ := blanks.complete t ⟨ne, ht⟩
      exact ⟨s, List.mem_cons_of_mem _ hs, same⟩

end Represents

/-- The spellings of blanks. -/
def Space.spellings : Space → List Text
  | .none => [[]]
  | .slack => [[], [' ']]
  | .blanks => [[' ']]

/-- A word and more words with a space in front of each. -/
def spellWords (first : Word) (more : List Word) : Text :=
  first.text ++ more.flatMap fun w => ' ' :: w.text

mutual

/-- The spellings of a group without wildcards. -/
def Group.spellings : Group → List Text
  | .gap s => s.spellings
  | .text lead first more tail =>
    concatEach (concatEach (Space.ofLead lead).spellings [spellWords first more]) tail.spellings
  | .anyText => []
  | .choice first others => rowSpellings first ++ othersSpellings others
  | .bare first parts => concatEach first.spellings (rowSpellings parts)
  | .folded g h =>
    concatEach g.spellings ([] :: concatEach [[' ']] h.spellings) ++ h.spellings

/-- The spellings of a part. -/
def Part.spellings : Part → List Text
  | .group g => g.spellings
  | .optional g => [] :: g.spellings
  | .spaced g => [] :: concatEach [[' ']] g.spellings
  | .absorbed g => [] :: concatEach g.spellings [[' ']]

/-- The spellings of a row of parts. -/
def rowSpellings : List Part → List Text
  | [] => [[]]
  | p :: ps => concatEach p.spellings (rowSpellings ps)

/-- The spellings of further alternatives. -/
def othersSpellings : List (List Part) → List Text
  | [] => []
  | ps :: rest => rowSpellings ps ++ othersSpellings rest

end

mutual

/-- Whether a group has no wildcards. -/
def Group.isListed : Group → Bool
  | .gap _ | .text .. => true
  | .anyText => false
  | .choice first others => rowIsListed first && othersAreListed others
  | .bare first parts => first.isListed && rowIsListed parts
  | .folded g h => g.isListed && h.isListed

/-- Whether a part has no wildcards. -/
def Part.isListed : Part → Bool
  | .group g | .optional g | .spaced g | .absorbed g => g.isListed

/-- Whether a row of parts has no wildcards. -/
def rowIsListed : List Part → Bool
  | [] => true
  | p :: ps => p.isListed && rowIsListed ps

/-- Whether further alternatives have no wildcards. -/
def othersAreListed : List (List Part) → Bool
  | [] => true
  | ps :: rest => rowIsListed ps && othersAreListed rest

end

theorem represents_space : ∀ s : Space, Represents s.spellings s.language
  | .none => .one
  | .slack => .slack
  | .blanks => .blanks

theorem represents_words (first : Word) (more : List Word) :
    Represents [spellWords first more] (wordsLanguage first more) := by
  have later : Represents [more.flatMap fun w => ' ' :: w.text]
      (more.map fun w => spaces * {w.text}).prod := by
    induction more with
    | nil => exact .one
    | cons w more ih =>
      rw [List.map_cons, List.prod_cons, List.flatMap_cons]
      exact (Represents.blanks.mul (.singleton w.text)).mul ih
  exact (Represents.singleton first.text).mul later

mutual

theorem represents_group : ∀ g : Group, g.isListed = true → Represents g.spellings g.language
  | .gap s, _ => by
    rw [Group.spellings, Group.language]
    exact represents_space s
  | .text lead first more tail, _ => by
    rw [Group.spellings, Group.language]
    exact ((represents_space _).mul (represents_words first more)).mul (represents_space tail)
  | .anyText, h => by cases h
  | .choice first others, h => by
    rw [Group.isListed, Bool.and_eq_true] at h
    rw [Group.spellings, Group.language]
    exact (represents_row first h.1).add (represents_others others h.2)
  | .bare first parts, h => by
    rw [Group.isListed, Bool.and_eq_true] at h
    rw [Group.spellings, Group.language]
    exact (represents_part first h.1).mul (represents_row parts h.2)
  | .folded g g', h => by
    rw [Group.isListed, Bool.and_eq_true] at h
    rw [Group.spellings, Group.language]
    have second := represents_group g' h.2
    exact ((represents_group g h.1).mul (Represents.blanks.mul second).optional).add second

theorem represents_part : ∀ p : Part, p.isListed = true → Represents p.spellings p.language
  | .group g, h => by
    rw [Part.isListed] at h
    rw [Part.spellings, Part.language]
    exact represents_group g h
  | .optional g, h => by
    rw [Part.isListed] at h
    rw [Part.spellings, Part.language]
    exact (represents_group g h).optional
  | .spaced g, h => by
    rw [Part.isListed] at h
    rw [Part.spellings, Part.language]
    exact (Represents.blanks.mul (represents_group g h)).optional
  | .absorbed g, h => by
    rw [Part.isListed] at h
    rw [Part.spellings, Part.language]
    exact ((represents_group g h).mul .blanks).optional

/-- The spellings of a row are what is in its language, up to white space. -/
theorem represents_row : ∀ ps : List Part, rowIsListed ps = true →
    Represents (rowSpellings ps) (rowLanguage ps)
  | [], _ => .one
  | p :: ps, h => by
    rw [rowIsListed, Bool.and_eq_true] at h
    rw [rowSpellings, rowLanguage]
    exact (represents_part p h.1).mul (represents_row ps h.2)

theorem represents_others : ∀ rest : List (List Part), othersAreListed rest = true →
    Represents (othersSpellings rest) (othersLanguage rest)
  | [], _ => .nil
  | ps :: rest, h => by
    rw [othersAreListed, Bool.and_eq_true] at h
    rw [othersSpellings, othersLanguage]
    exact (represents_row ps h.1).add (represents_others rest h.2)

end

variable {ps qs : List Part} {n : Node} {ns : List Node}

theorem rowIsListed_append (ps qs : List Part) :
    rowIsListed (ps ++ qs) = (rowIsListed ps && rowIsListed qs) := by
  induction ps with
  | nil => rfl
  | cons p ps ih => rw [List.cons_append, rowIsListed, rowIsListed, ih, Bool.and_assoc]

theorem rowIsListed_relax (h : relaxRow? ps = some qs) : rowIsListed qs = rowIsListed ps := by
  obtain ⟨row, g, g', relaxed, rfl, rfl⟩ := relaxRow?_eq_some_iff.1 h
  have same : g'.isListed = g.isListed := by
    obtain ⟨rfl, rfl⟩ | ⟨lead, first, more, rfl, rfl⟩ := Group.relax?_cases relaxed <;> rfl
  simp only [rowIsListed_append, rowIsListed, Part.isListed, same]

theorem rowIsListed_absorb (ps qs : List Part) :
    rowIsListed (absorbRow ps qs) = (rowIsListed ps && rowIsListed qs) := by
  rw [absorbRow]
  split
  · rename_i lone padded
    obtain rfl := loneOptional?_eq_some_iff.1 lone
    obtain ⟨first, more, tail, rest, ⟨rfl, rfl⟩ | ⟨rfl, rfl⟩⟩ := padded?_eq_some_iff.1 padded <;>
      simp [rowIsListed, Part.isListed, Group.isListed]
  · exact rowIsListed_append ps qs

/-- Merging brings no wildcards in. -/
theorem rowIsListed_merge (ps qs : List Part) {optional? : Option Group} (wildcard : Bool)
    (lone : ∀ g, optional? = some g → qs = [.optional g]) :
    rowIsListed (mergeRow ps qs optional? wildcard) = (rowIsListed ps && rowIsListed qs) := by
  rw [mergeRow.eq_def]
  split
  · rename_i h
    obtain rfl := lone h rfl
    split
    · rename_i gapped
      obtain rfl := gapped?_eq_some_iff.1 gapped
      simp [rowIsListed, Part.isListed, Group.isListed]
    · rename_i relaxed
      simp [rowIsListed_append, rowIsListed_relax relaxed, rowIsListed, Part.isListed]
    · exact rowIsListed_absorb ps _
  · split
    · rename_i relaxed
      rw [rowIsListed_append, rowIsListed_relax relaxed]
    · exact rowIsListed_absorb ps qs

theorem isListed_atomGroup (ps : List Part) : (atomGroup ps).isListed = rowIsListed ps := by
  rw [atomGroup.eq_def]
  split <;> simp [Group.isListed, rowIsListed, Part.isListed]

theorem rowIsListed_rowOfAll (each : ∀ n ∈ ns, rowIsListed (rowOf n) = true)
    (merged : Option (List Part)) (h : rowIsListed (merged.getD []) = true) :
    rowIsListed (rowOfAll merged ns) = true := by
  induction ns generalizing merged with
  | nil => exact h
  | cons n ns ih =>
    obtain ⟨head, each⟩ := List.forall_mem_cons.1 each
    rw [rowOfAll]
    refine ih each _ ?_
    cases merged with
    | none => exact head
    | some before =>
      have lone : ∀ g, optionalOf? n (rowOf n) = some g → rowOf n = [.optional g] :=
        fun _ => optionalOf?_eq_some
      rw [Option.getD_some] at h ⊢
      rw [mergeNode, rowIsListed_merge before (rowOf n) _ lone, h, head]
      rfl

/-- The row of a tree without wildcards has none. -/
theorem rowIsListed_rowOf (h : n.Plain) (free : n.containsWildcard = false) :
    rowIsListed (rowOf n) = true := by
  induction h with
  | sequence _ _ ih =>
    rw [Node.containsWildcard, Node.anyWildcard_eq_false] at free
    rw [rowOf]
    exact rowIsListed_rowOfAll (fun n hn => ih n hn (free n hn)) none rfl
  | @literal t =>
    rw [rowOf, literalGroup]
    cases wordsOf t <;> rfl
  | optional _ ih =>
    rw [Node.containsWildcard] at free
    simp [rowOf, rowIsListed, Part.isListed, isListed_atomGroup, ih free]
  | @choice delimiter alternatives _ _ ih =>
    rw [Node.containsWildcard, Node.anyWildcard_eq_false] at free
    have others : ∀ ns : List Node, (∀ n ∈ ns, rowIsListed (rowOf n) = true) →
        othersAreListed (rowsOf ns) = true := by
      intro ns each
      induction ns with
      | nil => rfl
      | cons n ns ih =>
        obtain ⟨head, each⟩ := List.forall_mem_cons.1 each
        rw [rowsOf, othersAreListed, head, ih each]
        rfl
    have all := others alternatives fun n hn => ih n hn (free n hn)
    rw [rowOf]
    cases e : rowsOf alternatives with
    | nil => rfl
    | cons first rest =>
      rw [e, othersAreListed] at all
      simpa [rowIsListed, Part.isListed, Group.isListed] using all
  | wildcard => cases free

end Pattern

namespace Node

/-- Whether merging keeps the words of the tree apart: each spelling of its pattern is one of its
readings, up to the amount of white space between words and the white space at the ends. -/
def keepsWords (n : Node) : Bool :=
  (Pattern.rowSpellings (Pattern.rowOf n)).all fun s => n.readings.any fun r => s.tidy == r.tidy

/-- The check of the spellings decides on all the texts that the pattern accepts. -/
theorem keepsWords_iff {n : Node} (h : n.Plain) (free : n.containsWildcard = false) :
    n.keepsWords ↔ ∀ t ∈ Pattern.rowLanguage (Pattern.rowOf n), ∃ s ∈ n.realisations,
      Text.tidy t = Text.tidy s := by
  have listed := Pattern.represents_row _ (Pattern.rowIsListed_rowOf h free)
  have check : n.keepsWords ↔ ∀ t ∈ Pattern.rowSpellings (Pattern.rowOf n), ∃ s ∈ n.realisations,
      Text.tidy t = Text.tidy s := by
    simp [keepsWords, mem_readings_iff h free]
  rw [check]
  constructor
  · intro kept t ht
    obtain ⟨s, hs, alike⟩ := listed.complete t ht
    obtain ⟨r, hr, same⟩ := kept s hs
    exact ⟨r, hr, alike.tidy_eq.trans same⟩
  · intro kept s hs
    exact kept s (listed.sound s hs)

end Node
end StepMatch
