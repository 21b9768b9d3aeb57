import StepMatch.Proofs.Matcher.Splitting
import StepMatch.Proofs.Pattern.Spellings

/-!
# Recognising a sentence

A matcher recognises a sentence when matching does not end without a match. For an expression
without slots and wildcards it can be decided whether everything that is recognised has the words of
a reading of the expression. That is not always so: the blanks in front of an optional part are not
called for once that part is left out, whatever stands after it.
-/

namespace StepMatch.Matcher

/-- The matcher has a regex in the locale, and the sentence fits it. Whether what stands in the slots
can be read is another matter. -/
structure Recognises (m : Matcher) (l : Locale) (sentence : Text) : Prop where
  built : ∃ p, m.program l = .ok p
  fits : m.matchIn l sentence ≠ .ok none

variable {m : Matcher} {l : Locale} {sentence : Text}

theorem recognises_iff_exists_splits (readable : ∀ piece ∈ m.pieces, piece.IsReadable l) :
    m.Recognises l sentence ↔ ∃ ws, m.Splits l sentence ws := by
  have follows := followsSplits_of_isReadable readable sentence
  obtain ⟨p, built, -⟩ := search_program readable sentence
  have fits : m.matchIn l sentence ≠ .ok none ↔ ∃ ws, m.Splits l sentence ws := by
    rw [Ne, follows.unmatched, not_forall_not]
  exact ⟨fun h => fits.1 h.fits, fun h => ⟨⟨p, built⟩, fits.2 h⟩⟩

variable {types : DataTypes} {factories : AssertionFactories} {default : Locale}
  {expression : Text} {n : Node}

/-- An expression that makes a single pattern is compiled whatever is registered, and its matcher
recognises what the regex of the pattern matches. -/
theorem exists_compile_of_pattern {expression : Text} {n : Node} {p : Pattern} {r : Regex}
    (parsed : Node.parse expression = .ok n) (fragments : Fragment.ofNode n = .ok [.pattern p])
    (read : Regex.read? .extended (Regex.anchored p.regex) = some r) :
    ∃ m, compile types factories default expression = .ok m ∧
      ∀ l t, m.Recognises l t ↔ r.isMatch t := by
  let m : Matcher := ⟨expression, [.pattern p], .ofNode n⟩
  have made : ofExpression types factories expression = .ok m := by
    rw [ofExpression, parsed]
    dsimp only
    rw [fragments]
    rfl
  have program (l : Locale) : m.program l = .ok ⟨Regex.anchored p.regex, r⟩ := by
    have body : Piece.concatRegex l 0 m.pieces = .ok p.regex :=
      congrArg Except.ok (List.append_nil p.regex)
    rw [Matcher.program, body]
    dsimp only [Except.bind]
    rw [read]
  refine ⟨m, compile_of_ofExpression made (by rw [program]; rfl), fun l t => ?_⟩
  have result : m.matchIn l t = .ok (if r.isMatch t then some {} else none) := by
    rw [matchIn, program]
    dsimp only [Except.bind, matchWith]
    rw [Regex.isMatch]
    cases r.search t <;> rfl
  constructor
  · intro recognised
    by_contra unmatched
    rw [if_neg unmatched] at result
    exact recognised.fits result
  · intro matched
    rw [if_pos matched] at result
    exact ⟨⟨_, program l⟩, by rw [result]; simp⟩

/-- The matcher of a plain tree has one piece, the pattern of the tree. -/
theorem pieces_of_plain (parsed : Node.parse expression = .ok n) (plain : n.Plain)
    (made : ofExpression types factories expression = .ok m) :
    ∃ p, Pattern.Renders n p ∧ m.pieces = [.pattern p] := by
  obtain ⟨p, renders⟩ := Pattern.exists_renders plain
  refine ⟨p, renders, ?_⟩
  rw [ofExpression, parsed] at made
  dsimp only at made
  rw [Fragment.ofNode_plain plain renders] at made
  cases made
  rfl

/-- What is recognised by the matcher of a plain tree is what the row of the tree accepts. -/
theorem recognises_iff_of_plain (parsed : Node.parse expression = .ok n) (plain : n.Plain)
    (made : ofExpression types factories expression = .ok m) :
    m.Recognises l sentence ↔ sentence ∈ Pattern.rowLanguage (Pattern.rowOf n) := by
  obtain ⟨p, renders, pieces⟩ := pieces_of_plain parsed plain made
  have row : (Fragment.pattern p).IsRow := ⟨_, renders.proper, renders.regex⟩
  have readable : ∀ piece ∈ m.pieces, piece.IsReadable l := by
    rw [pieces, List.forall_mem_singleton]
    exact Piece.isReadable_pattern row
  have takes : ∀ w, Piece.Takes l (.pattern p) w ↔ w ∈ Pattern.rowLanguage (Pattern.rowOf n) := by
    have writes := (Pattern.writes_row .extended (Pattern.rowOf n)).loosen.body
    rw [← renders.regex] at writes
    intro w
    rw [← writes.isLocalText_and_accepted.2]
    exact Iff.rfl
  rw [recognises_iff_exists_splits readable]
  simp only [Splits, pieces]
  constructor
  · rintro ⟨ws, split, rfl⟩
    obtain ⟨w, ws, takes', later, rfl⟩ := List.forall₂_cons_left_iff.1 split
    obtain rfl := List.forall₂_nil_left_iff.1 later
    simpa using (takes w).1 takes'
  · intro mem
    exact ⟨[sentence], .cons ((takes sentence).2 mem) .nil, by simp⟩

/-- Everything that the matcher of an expression without slots, negations and wildcards recognises
has the words of a reading exactly if the spellings of the pattern do. -/
theorem forall_recognised_iff_keepsWords (parsed : Node.parse expression = .ok n)
    (slotFree : n.containsSlot = false) (negationFree : n.containsNegation = false)
    (wildcardFree : n.containsWildcard = false)
    (compiled : compile types factories default expression = .ok m) :
    (∀ t, m.Recognises l t → ∃ s ∈ n.realisations, Text.tidy t = Text.tidy s) ↔ n.keepsWords := by
  have plain := (Node.formed_of_parse parsed).plain slotFree negationFree
  rw [Node.keepsWords_iff plain wildcardFree]
  simp only [recognises_iff_of_plain parsed plain (ofExpression_of_compile compiled)]

/-- With optional parts that bring white space of their own. -/
theorem recognised_of_optionals : ∃ m n,
    Node.parse "a (b) c (d)".toList = .ok n ∧
      compile Registry.empty Registry.empty .default "a (b) c (d)".toList = .ok m ∧
      ∀ t, m.Recognises .default t → ∃ s ∈ n.realisations, Text.tidy t = Text.tidy s := by
  obtain ⟨n, parsed, checked⟩ := exists_ok (x := Node.parse "a (b) c (d)".toList)
    (p := fun n => !n.containsSlot && !n.containsNegation && !n.containsWildcard && n.keepsWords)
    (by decide +kernel)
  obtain ⟨m, compiled, -⟩ := exists_ok (p := fun _ => true)
    (x := compile Registry.empty Registry.empty .default "a (b) c (d)".toList) (by decide +kernel)
  simp only [Bool.and_eq_true, Bool.not_eq_true'] at checked
  obtain ⟨⟨⟨slotFree, negationFree⟩, wildcardFree⟩, keeps⟩ := checked
  exact ⟨m, n, parsed, compiled, (forall_recognised_iff_keepsWords parsed slotFree negationFree
    wildcardFree compiled).2 keeps⟩

/-- Where an optional part is left out of the middle of a text, its neighbours may be glued. -/
theorem recognised_of_glued : ∃ m n,
    Node.parse "a (b)c".toList = .ok n ∧
      compile Registry.empty Registry.empty .default "a (b)c".toList = .ok m ∧
      m.Recognises .default "ac".toList ∧
      ∀ s ∈ n.realisations, Text.tidy "ac".toList ≠ Text.tidy s := by
  let n : Node := .sequence [.literal "a ".toList, .optional (.literal "b".toList),
    .literal "c".toList]
  have parsed : Node.parse "a (b)c".toList = .ok n := rfl
  have plain : n.Plain := (Node.formed_of_parse parsed).plain rfl rfl
  obtain ⟨m, compiled, -⟩ := exists_ok (p := fun _ => true)
    (x := compile Registry.empty Registry.empty .default "a (b)c".toList) (by decide +kernel)
  refine ⟨m, n, parsed, compiled, ?_, fun s hs => ?_⟩
  · rw [recognises_iff_of_plain parsed plain (ofExpression_of_compile compiled)]
    refine (Pattern.represents_row _ ?_).sound _ ?_
    · decide +kernel
    · decide +kernel
  · have each : n.readings.all (fun s => Text.tidy "ac".toList != Text.tidy s) := by decide +kernel
    simpa using List.all_eq_true.1 each s ((Node.mem_readings_iff plain rfl s).2 hs)

end StepMatch.Matcher
