import StepMatch.Proofs.Expression.Leaves
import StepMatch.Proofs.Pattern.Spellings
import StepMatch.Proofs.Text.Marks

/-!
# Samples of what a tree stands for

With wildcards a tree stands for infinitely many texts. A few samples decide whether its pattern takes
them all: a wildcard is empty, a space, or a mark with a space at either end or without it. The mark
stands for any text, since a pattern tells text from other text only by its own words, and the mark is
in none of them.
-/

namespace StepMatch

open Text (Fills IsSample fillings)

/-- Each of the texts is in the language, and each text of the language has a sample among them. -/
structure Exemplify (mark : Char) (ss : List Text) (L : TextLanguage) : Prop where
  sound : ∀ s ∈ ss, s ∈ L
  complete : ∀ t ∈ L, ∃ s ∈ ss, IsSample mark s t

namespace Exemplify

variable {mark : Char} {ss us : List Text} {t : Text} {L M : TextLanguage}

theorem nil : Exemplify mark [] 0 := ⟨by simp, fun _ h => h.elim⟩

theorem singleton (ink : isInk mark) (free : mark ∉ t) : Exemplify mark [t] {t} where
  sound _ hs := List.mem_singleton.1 hs
  complete u hu := by
    obtain rfl : u = t := hu
    exact ⟨u, List.mem_singleton_self u, Text.isSample_refl ink free⟩

theorem one (ink : isInk mark) : Exemplify mark [[]] 1 := singleton ink List.not_mem_nil

theorem add (h : Exemplify mark ss L) (h' : Exemplify mark us M) :
    Exemplify mark (ss ++ us) (L + M) := by
  constructor
  · intro s hs
    rw [Language.mem_add]
    exact (List.mem_append.1 hs).imp (h.sound s) (h'.sound s)
  · intro t ht
    obtain ht | ht := (Language.mem_add L M t).1 ht
    · obtain ⟨s, hs, sample⟩ := h.complete t ht
      exact ⟨s, List.mem_append_left us hs, sample⟩
    · obtain ⟨s, hs, sample⟩ := h'.complete t ht
      exact ⟨s, List.mem_append_right ss hs, sample⟩

theorem mul (h : Exemplify mark ss L) (h' : Exemplify mark us M) :
    Exemplify mark (concatEach ss us) (L * M) := by
  constructor
  · intro w hw
    obtain ⟨s, hs, u, hu, rfl⟩ := mem_concatEach.1 hw
    exact Language.append_mem_mul (h.sound s hs) (h'.sound u hu)
  · intro w hw
    obtain ⟨t, ht, v, hv, rfl⟩ := Language.mem_mul.1 hw
    obtain ⟨s, hs, sample⟩ := h.complete t ht
    obtain ⟨u, hu, sample'⟩ := h'.complete v hv
    exact ⟨s ++ u, mem_concatEach.2 ⟨s, hs, u, hu, rfl⟩, sample.append sample'⟩

theorem line (ink : isInk mark) : Exemplify mark (fillings mark) Regex.line where
  sound s hs c hc := by
    have own : c = mark ∨ c = ' ' := by
      simp only [fillings, List.mem_cons, List.not_mem_nil, or_false] at hs
      obtain rfl | rfl | rfl | rfl | rfl | rfl := hs <;> simp at hc <;> tauto
    obtain rfl | rfl := own
    · rintro rfl
      cases ink
    · decide
  complete _ ht := Text.exists_isSample ink ht

end Exemplify

namespace Node

mutual

/-- The texts that a tree stands for, if a wildcard is one of a few texts with a mark. -/
def samples (mark : Char) : Node → List Text
  | .sequence children => concatSamples mark children
  | .literal t => [t]
  | .optional child => [] :: samples mark child
  | .choice _ alternatives => choiceSamples mark alternatives
  | .wildcard => fillings mark
  | .negation .. | .argument .. | .assertion .. => []

/-- The samples of trees one after the other. -/
def concatSamples (mark : Char) : List Node → List Text
  | [] => [[]]
  | n :: ns => concatEach (samples mark n) (concatSamples mark ns)

/-- The samples of any of the trees. -/
def choiceSamples (mark : Char) : List Node → List Text
  | [] => []
  | n :: ns => samples mark n ++ choiceSamples mark ns

end

variable {mark : Char} {n : Node} {ns : List Node}

end Node

/-! ## What patterns tell apart -/

variable {mark : Char} {L M : TextLanguage}

/-- Whatever is filled in for the marks in a text of the language, the text stays in the language. -/
def IsSteady (mark : Char) (L : TextLanguage) : Prop :=
  ∀ ⦃s⦄, s ∈ L → ∀ ⦃t⦄, Fills mark s t → t ∈ L

theorem isSteady_of_free (free : ∀ s ∈ L, mark ∉ s) : IsSteady mark L := by
  intro s hs t fills
  rwa [fills.eq (free s hs)]

theorem isSteady_one : IsSteady mark 1 := isSteady_of_free fun s hs => by
  rw [(Language.mem_one s).1 hs]
  exact List.not_mem_nil

theorem isSteady_of_blank (ink : isInk mark) (blank : ∀ s ∈ L, ∀ c ∈ s, isBlank c) :
    IsSteady mark L :=
  isSteady_of_free fun s hs mem => by simp [isInk, blank s hs mark mem] at ink

theorem IsSteady.add (h : IsSteady mark L) (h' : IsSteady mark M) : IsSteady mark (L + M) := by
  intro s hs t fills
  obtain hs | hs := (Language.mem_add L M s).1 hs
  · exact .inl (h hs fills)
  · exact .inr (h' hs fills)

theorem IsSteady.mul (h : IsSteady mark L) (h' : IsSteady mark M) : IsSteady mark (L * M) := by
  intro w hw t fills
  obtain ⟨s, hs, u, hu, rfl⟩ := Language.mem_mul.1 hw
  obtain ⟨x, y, rfl, own, later⟩ := fills.exists_append
  exact Language.append_mem_mul (h hs own) (h' hu later)

theorem isSteady_line : IsSteady mark Regex.line := fun _ hs _ fills => fills.inLine hs

theorem isSteady_spaces (ink : isInk mark) : IsSteady mark Regex.spaces :=
  isSteady_of_blank ink fun _ h => h.2

namespace Pattern

variable {t : Text} {ps qs : List Part} {n : Node} {ns : List Node}

theorem isSteady_space (ink : isInk mark) : ∀ s : Space, IsSteady mark s.language
  | .none => isSteady_one
  | .slack => isSteady_of_blank ink fun _ h => h
  | .blanks => isSteady_spaces ink

mutual

/-- The words of a group, in order. -/
def Group.words : Group → List Word
  | .gap _ | .anyText => []
  | .text _ first more _ => first :: more
  | .choice first others => rowWords first ++ othersWords others
  | .bare first parts => first.words ++ rowWords parts
  | .folded g h => g.words ++ h.words

/-- The words of a part. -/
def Part.words : Part → List Word
  | .group g | .optional g | .spaced g | .absorbed g => g.words

/-- The words of a row of parts. -/
def rowWords : List Part → List Word
  | [] => []
  | p :: ps => p.words ++ rowWords ps

/-- The words of further alternatives. -/
def othersWords : List (List Part) → List Word
  | [] => []
  | ps :: rest => rowWords ps ++ othersWords rest

end

theorem isSteady_words (ink : isInk mark) (first : Word) (more : List Word)
    (free : ∀ w ∈ first :: more, mark ∉ w.text) : IsSteady mark (wordsLanguage first more) := by
  have single : ∀ {w : Word}, mark ∉ w.text → IsSteady mark {w.text} := fun own =>
    isSteady_of_free fun s hs => by rwa [show s = _ from hs]
  rw [List.forall_mem_cons] at free
  obtain ⟨own, free⟩ := free
  refine (single own).mul ?_
  induction more with
  | nil => exact isSteady_one
  | cons w more ih =>
    rw [List.forall_mem_cons] at free
    rw [List.map_cons, List.prod_cons]
    exact ((isSteady_spaces ink).mul (single free.1)).mul (ih free.2)

mutual

theorem isSteady_group (ink : isInk mark) : ∀ g : Group, (∀ w ∈ g.words, mark ∉ w.text) →
    IsSteady mark g.language
  | .gap s, _ => by
    rw [Group.language]
    exact isSteady_space ink s
  | .text lead first more tail, free => by
    rw [Group.words] at free
    rw [Group.language]
    exact ((isSteady_space ink _).mul (isSteady_words ink first more free)).mul
      (isSteady_space ink tail)
  | .anyText, _ => by
    rw [Group.language]
    exact isSteady_line
  | .choice first others, free => by
    rw [Group.words, List.forall_mem_append] at free
    rw [Group.language]
    exact (isSteady_row ink first free.1).add (isSteady_others ink others free.2)
  | .bare first parts, free => by
    rw [Group.words, List.forall_mem_append] at free
    rw [Group.language]
    exact (isSteady_part ink first free.1).mul (isSteady_row ink parts free.2)
  | .folded g h, free => by
    rw [Group.words, List.forall_mem_append] at free
    rw [Group.language]
    have second := isSteady_group ink h free.2
    exact ((isSteady_group ink g free.1).mul
      (isSteady_one.add ((isSteady_spaces ink).mul second))).add second

theorem isSteady_part (ink : isInk mark) : ∀ p : Part, (∀ w ∈ p.words, mark ∉ w.text) →
    IsSteady mark p.language
  | .group g, free => by
    rw [Part.words] at free
    rw [Part.language]
    exact isSteady_group ink g free
  | .optional g, free => by
    rw [Part.words] at free
    rw [Part.language]
    exact isSteady_one.add (isSteady_group ink g free)
  | .spaced g, free => by
    rw [Part.words] at free
    rw [Part.language]
    exact isSteady_one.add ((isSteady_spaces ink).mul (isSteady_group ink g free))
  | .absorbed g, free => by
    rw [Part.words] at free
    rw [Part.language]
    exact isSteady_one.add ((isSteady_group ink g free).mul (isSteady_spaces ink))

/-- A row takes whatever is filled in for a mark that is in none of its words. -/
theorem isSteady_row (ink : isInk mark) : ∀ ps : List Part, (∀ w ∈ rowWords ps, mark ∉ w.text) →
    IsSteady mark (rowLanguage ps)
  | [], _ => isSteady_one
  | p :: ps, free => by
    rw [rowWords, List.forall_mem_append] at free
    rw [rowLanguage]
    exact (isSteady_part ink p free.1).mul (isSteady_row ink ps free.2)

theorem isSteady_others (ink : isInk mark) : ∀ rest : List (List Part),
    (∀ w ∈ othersWords rest, mark ∉ w.text) → IsSteady mark (othersLanguage rest)
  | [], _ => fun _ h => h.elim
  | ps :: rest, free => by
    rw [othersWords, List.forall_mem_append] at free
    rw [othersLanguage]
    exact (isSteady_row ink ps free.1).add (isSteady_others ink rest free.2)

end

/-- Whether the regex of the pattern matches the text from end to end. -/
def takes (p : Pattern) (t : Text) : Bool :=
  (Regex.read? .extended (Regex.anchored p.regex)).any fun r => r.isMatch t

theorem Renders.takes_iff {p : Pattern} (r : Renders n p) (t : Text) :
    p.takes t ↔ t ∈ rowLanguage (rowOf n) := by
  obtain ⟨q, read, accepts⟩ := (writes_row .extended (rowOf n)).read?_anchored
  rw [takes, r.regex, read, Option.any_some, accepts]

end Pattern

end StepMatch
