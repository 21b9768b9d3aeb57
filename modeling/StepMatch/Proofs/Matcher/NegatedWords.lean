import StepMatch.Proofs.Matcher.Clauses
import StepMatch.Proofs.Matcher.Negation

/-!
# Negated words

Between two phrases, a negated word stands for any one word that it does not open. What is taken there
begins with ink, so the search looks ahead where a word begins, in whatever white space the sentence is
written; and a word that it sees past what is taken would hold a blank.
-/

namespace StepMatch

open Pattern (Word)

/-- A phrase, a negated word and another phrase, with single spaces between neighbours. -/
def negatedWord (left : Wording) (word : Word) (right : Wording) : Text :=
  escapeLiteral left.text ++ ' ' :: '^' :: escapeLiteral word.text ++ ' ' :: escapeLiteral right.text

/-- The phrases with another word between them. -/
def Wording.around (left : Wording) (x : Text) (right : Wording) : Text :=
  left.text ++ [' '] ++ (x ++ ' ' :: right.text)

variable {left right : Wording} {word : Word} {t x s : Text}

namespace Pattern.Word

theorem any_isBlank (word : Word) : List.any word.text isBlank = false :=
  any_isBlank_of_ink word.ink

end Pattern.Word

namespace Wording

theorem startsBlank_text (p : Wording) : Text.startsBlank p.text = false := by
  rw [text, words, List.map_cons, Text.joinWith_cons]
  exact Clause.startsBlank_text_append p.first _

theorem endsBlank_text (p : Wording) : Text.endsBlank p.text = false := by
  obtain ⟨ws, w, e⟩ := (List.eq_nil_or_concat' p.words).resolve_left p.words_ne_nil
  rw [text, e, Clause.joinWith_eq_pending, endsBlank_append w.ne, Text.endsBlank_of_ink w.any_isBlank]

theorem words_space_text (p : Wording) : Text.words (' ' :: p.text) = Text.words p.text :=
  Text.words_append_space [] p.text

/-- The words of two phrases and of ink between them. -/
theorem words_around (left : Wording) (ne : x ≠ []) (ink : x.any isBlank = false) (right : Wording) :
    (left.around x right).words =
      (left.words.map fun w => w.text) ++ x :: right.words.map fun w => w.text := by
  rw [around, List.append_assoc, List.singleton_append, Text.words_append_space,
    Text.words_append_space, Text.words_of_ink ne ink, left.words_text, right.words_text]
  rfl

/-- Texts that are like the phrases with ink between them are those with these words and ink at the
ends. -/
theorem alike_around_iff (ne : x ≠ []) (ink : x.any isBlank = false) :
    Text.Alike t (left.around x right) ↔ t.startsBlank = false ∧ t.endsBlank = false ∧
      t.words = (left.words.map fun w => w.text) ++ x :: right.words.map fun w => w.text := by
  have starts : (left.around x right).startsBlank = false := by
    rw [around, List.append_assoc, startsBlank_append left.text_ne_nil, left.startsBlank_text]
  have ends : (left.around x right).endsBlank = false := by
    have e : left.around x right = (left.text ++ [' '] ++ (x ++ [' '])) ++ right.text := by
      simp [around]
    rw [e, endsBlank_append right.text_ne_nil, right.endsBlank_text]
  rw [Text.Alike.iff_words, left.words_around ne ink right, starts, ends]
  tauto

end Wording

/-- A word that opens ink with a blank behind it opens the ink. -/
theorem prefix_append_iff (word : Word) (edge : s.startsBlank = true) :
    word.text <+: x ++ s ↔ word.text <+: x := by
  refine ⟨fun h => ?_, fun h => h.trans (List.prefix_append x s)⟩
  by_contra short
  obtain ⟨v, e⟩ : x <+: word.text :=
    (List.prefix_or_prefix_of_prefix h (List.prefix_append x s)).resolve_left short
  rw [← e, List.prefix_append_right_inj] at h
  obtain _ | ⟨c, v⟩ := v
  · exact short ⟨[], by rw [← e, List.append_nil, List.append_nil]⟩
  · obtain ⟨more, rfl⟩ := h
    have ink := List.any_eq_false.1 word.any_isBlank c (e ▸ by simp)
    exact ink (by simpa [Text.startsBlank] using edge)

namespace Node

/-- The tree of a negated word between phrases. -/
theorem parse_negatedWord (left : Wording) (word : Word) (right : Wording) :
    parse (negatedWord left word right) = .ok (.sequence (.literal (left.text ++ [' ']) ::
      .negation .word (.literal word.text) :: ofText (' ' :: right.text))) := by
  let symbols : List Symbol :=
    [.text (left.text ++ [' ']), .negation, .text (word.text ++ ' ' :: right.text)]
  have written : symbols.flatMap Symbol.write = negatedWord left word right := by
    simp [symbols, Symbol.write, Symbol.describe, negatedWord, escapeLiteral_append]
    rfl
  have stars : ['*'] ∉ Text.words (left.text ++ [' ']) := by
    rw [Text.words_append_space]
    simpa [Text.words, Text.splitWords, Text.closeWord] using left.star_not_mem_words
  have stars' : ['*'] ∉ Text.words (' ' :: right.text) := by
    rw [right.words_space_text]
    exact right.star_not_mem_words
  have parts : ofParts [.literal (left.text ++ [' ']), .negation .word (.literal word.text),
      .literal (' ' :: right.text)] = .sequence (.literal (left.text ++ [' ']) ::
        .negation .word (.literal word.text) :: ofText (' ' :: right.text)) := rfl
  rw [← written, ← parts]
  refine parse_write ?_ ?_ ?_ (List.cons_ne_nil _ _)
  · simp [symbols]
  · simp [symbols, Symbol.Apart]
  · refine .text (.negatedWord word.ne word.any_isBlank rfl (.nil rfl ?_))
    simp [Reading.pushText, Reading.push, carve_of_ne_nil _ stars, carve_of_ne_nil _ stars', Reading.start]

end Node

namespace Pattern

open Regex (Passage)

/-- What the negation of a word passes between two phrases: the phrases with ink between them that the
word does not open, in any white space. -/
theorem passes_negatedWord_iff (left : Wording) (word : Word) (right : Wording) (t : Text) :
    ((((Passage.takes (literalGroup (left.text ++ [' '])).language).comp
      (.refuses (literalGroup word.text).language)).comp (.takes Regex.inked)).comp
        (.takes (literalGroup (' ' :: right.text)).language)) t [] ↔
      ∃ x ∈ Regex.inked, Text.Alike t (left.around x right) ∧ ¬ word.text <+: x := by
  constructor
  · rintro ⟨_, ⟨_, ⟨_, ⟨a, front, rfl⟩, rfl, unseen⟩, x, ink, rfl⟩, s, back, rfl⟩
    have back := mem_literalGroup_iff.1 back
    have edge : Text.startsBlank s = true := by
      rw [back.startsBlank_eq]
      rfl
    rw [List.append_nil] at unseen ⊢
    refine ⟨x, ink, (mem_literalGroup_iff.1 front).append ((Text.Alike.refl x).append back), ?_⟩
    rw [← prefix_append_iff word edge]
    exact unseen _ (mem_literalGroup_iff.2 (.refl _))
  · rintro ⟨x, ⟨ne, ink⟩, alike, unseen⟩
    have inked := any_isBlank_of_ink ink
    have opens : Text.startsBlank (x ++ ' ' :: right.text) = false := by
      rw [startsBlank_append ne, Text.startsBlank_of_ink inked]
    have closes := Text.endsBlank_of_ink inked
    obtain ⟨a, y, rfl, front, rest⟩ := alike.exists_append (by rw [opens, Bool.and_false])
    obtain ⟨x', s, rfl, middle, back⟩ := rest.exists_append (by rw [closes, Bool.false_and])
    obtain rfl := middle.eq_of_ink inked
    have edge : Text.startsBlank s = true := by
      rw [back.startsBlank_eq]
      rfl
    refine ⟨s, ⟨_, ⟨_, ⟨a, mem_literalGroup_iff.2 front, rfl⟩, rfl, ?_⟩, x', ⟨ne, ink⟩, rfl⟩,
      s, mem_literalGroup_iff.2 back, (List.append_nil s).symm⟩
    intro w hw
    rw [(mem_literalGroup_iff.1 hw).eq_of_ink word.any_isBlank, prefix_append_iff word edge]
    exact unseen

end Pattern

namespace Matcher

/-- A negated word between two phrases stands for exactly one word, any that it does not open. There is
white space between neighbours, and none at the ends. -/
theorem recognises_negatedWord_iff (types : DataTypes) (factories : AssertionFactories)
    (default : Locale) (left : Wording) (word : Word) (right : Wording) :
    ∃ m, compile types factories default (negatedWord left word right) = .ok m ∧
      ∀ l t, m.Recognises l t ↔ t.startsBlank = false ∧ t.endsBlank = false ∧ ∃ x,
        t.words = (left.words.map fun w => w.text) ++ x :: (right.words.map fun w => w.text) ∧
          ¬ word.text <+: x := by
  have star : ['*'] ∉ Text.words (' ' :: right.text) := by
    rw [right.words_space_text]
    exact right.star_not_mem_words
  obtain ⟨p, fragments, regex⟩ :=
    Pattern.ofNode_negation .word (left.text ++ [' ']) word.text star
  obtain ⟨r, read, passes⟩ := (Pattern.walks_negationRegex .word (.ink .extended)
    (left.text ++ [' ']) word.text (' ' :: right.text)).isMatch_anchored
  rw [← regex] at read
  obtain ⟨m, compiled, recognises⟩ :=
    exists_compile_of_pattern (Node.parse_negatedWord left word right) fragments read
  refine ⟨m, compiled, fun l t => ?_⟩
  rw [recognises, passes, Pattern.passes_negatedWord_iff]
  constructor
  · rintro ⟨x, ⟨ne, ink⟩, alike, unseen⟩
    obtain ⟨starts, ends, words⟩ := (Wording.alike_around_iff ne (any_isBlank_of_ink ink)).1 alike
    exact ⟨starts, ends, x, words, unseen⟩
  · rintro ⟨starts, ends, x, words, unseen⟩
    have mem : x ∈ t.words := by rw [words]; simp
    have ne := Text.ne_nil_of_mem_words mem
    have ink := Text.isInk_of_mem_words mem
    exact ⟨x, ⟨ne, ink⟩, (Wording.alike_around_iff ne (any_isBlank_of_ink ink)).2
      ⟨starts, ends, words⟩, unseen⟩

/-- With a star as the negated word, in which nothing is special. -/
theorem recognises_negatedWord_of_star : ∃ m,
    compile .standard .standard .default "a b ^* c".toList = .ok m ∧
      m.Recognises .default "a  b\td*\nc".toList ∧ ¬ m.Recognises .default "a b  *d c".toList := by
  let word (t : Text) (ne : t ≠ []) (ink : t.all isInk = true) : Word := ⟨t, ne, List.all_eq_true.1 ink⟩
  let plain (t : Text) (ne : t ≠ []) (ink : t.all isInk = true) (tame : t ≠ ['*']) : PlainWord :=
    ⟨word t ne ink, tame⟩
  let a := plain "a".toList (by decide) (by decide) (by decide)
  let b := plain "b".toList (by decide) (by decide) (by decide)
  let c := plain "c".toList (by decide) (by decide) (by decide)
  obtain ⟨m, compiled, recognises⟩ := recognises_negatedWord_iff .standard .standard .default
    ⟨a, [b]⟩ (word "*".toList (by decide) (by decide)) ⟨c, []⟩
  refine ⟨m, compiled, (recognises _ _).2 ⟨rfl, rfl, "d*".toList, by decide, by decide⟩, ?_⟩
  rw [recognises]
  rintro ⟨-, -, x, words, unseen⟩
  obtain rfl : x = "*d".toList := by
    have words : ["a".toList, "b".toList, "*d".toList, "c".toList] = ["a".toList, "b".toList, x, "c".toList] := words
    simpa using words.symm
  exact unseen (by decide)

end Matcher
end StepMatch
