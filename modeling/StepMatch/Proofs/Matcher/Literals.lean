import StepMatch.Proofs.Expression.Writing
import StepMatch.Proofs.Matcher.Recognition
import StepMatch.Proofs.Pattern.Literals

/-!
# Literal text

Text is made an expression by a backslash before each structural character. Unless a star stands in it as
a word of its own, that expression is one literal, and its matcher recognises the text in any amount of
white space, and nothing else.
-/

namespace StepMatch

variable {t : Text}

/-- The tree of escaped text is that text. -/
theorem Node.parse_escapeLiteral (ne : t ≠ []) (star : ['*'] ∉ t.words) :
    parse (escapeLiteral t) = .ok (.literal t) := by
  have written : escapeLiteral t = [Symbol.text t].flatMap Symbol.write := by
    rw [List.flatMap_singleton]
    rfl
  have runs : Reading.start.Runs [.text t] [.literal t] := by
    refine .text (.nil rfl ?_)
    rw [Reading.pushText, carve_of_ne_nil ne star]
    rfl
  rw [written]
  exact parse_write (by simpa using ne.symm) (.singleton _) runs (List.cons_ne_nil _ _)

namespace Matcher

/-- Escaped text makes a single pattern. What its matcher recognises are the texts that are equal to it
once there is one space for each run of blanks, at the ends too. -/
theorem recognises_escapeLiteral_iff (types : DataTypes) (factories : AssertionFactories)
    (default : Locale) (ne : t ≠ []) (star : ['*'] ∉ t.words) :
    ∃ p m, Fragment.ofExpression (escapeLiteral t) = .ok [.pattern p] ∧
      compile types factories default (escapeLiteral t) = .ok m ∧ m.pieces = [.pattern p] ∧
      ∀ l u, m.Recognises l u ↔ Text.squeeze false t = Text.squeeze false u := by
  have parsed := Node.parse_escapeLiteral ne star
  have plain : (Node.literal t).Plain := .literal ne
  obtain ⟨p, renders⟩ := Pattern.exists_renders plain
  have fragments := Fragment.ofNode_plain plain renders
  obtain ⟨r, read, accepts⟩ := (Pattern.writes_row .extended _).read?_anchored
  rw [← renders.regex] at read
  obtain ⟨m, compiled, recognises⟩ := exists_compile_of_pattern parsed fragments read
  obtain ⟨q, again, pieces⟩ := pieces_of_plain parsed plain (ofExpression_of_compile compiled)
  obtain rfl : p = q := Except.ok.inj (renders.rendered.symm.trans again.rendered)
  refine ⟨p, m, ?_, compiled, pieces, fun l u => ?_⟩
  · rw [Fragment.ofExpression, parsed]
    exact fragments
  · have row : Pattern.rowLanguage (Pattern.rowOf (.literal t)) = (Pattern.literalGroup t).language := by
      simp [Pattern.rowOf, Pattern.rowLanguage, Pattern.Part.language]
    rw [recognises, accepts, row, Pattern.mem_literalGroup_iff]
    exact eq_comm

/-- With brackets, a backslash, a star inside a word and white space in front. -/
theorem recognises_escapeLiteral_of_marks : ∃ m,
    compile .standard .standard .default " 2*3\t\\(x\\) \\\\d+".toList = .ok m ∧
      m.Recognises .default "  2*3 (x)\n\\d+".toList ∧
      ¬ m.Recognises .default "2*3 (x) \\d+".toList := by
  obtain ⟨_, m, -, compiled, -, recognises⟩ := recognises_escapeLiteral_iff .standard .standard .default
    (t := " 2*3\t(x) \\d+".toList) (by decide) (by decide)
  refine ⟨m, compiled, (recognises _ _).2 (by decide), ?_⟩
  rw [recognises]
  decide

end Matcher
end StepMatch
