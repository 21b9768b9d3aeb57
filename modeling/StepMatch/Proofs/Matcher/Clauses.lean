import StepMatch.Proofs.Matcher.Recognition
import StepMatch.Proofs.Pattern.Clauses

/-!
# Sentences of clauses

An expression in clauses is recognised in the sentences that a choice for each of its clauses makes: an
optional phrase or nothing, one phrase of several. The words stand in order with white space between
neighbours, none in front, and none at the end, unless the last clause is an optional phrase that is
left out.
-/

namespace StepMatch

namespace Clause

theorem plain_node (c : Clause) : c.node.Plain := by
  cases c with
  | word w => exact .literal w.ne
  | optional p => exact .optional (.literal p.text_ne_nil)
  | choice round first second more =>
    refine .choice (by simp) fun n hn => ?_
    obtain ⟨p, -, rfl⟩ := List.mem_map.1 hn
    exact .literal p.text_ne_nil
  | bare first second more =>
    refine .choice (by simp) fun n hn => ?_
    obtain ⟨w, -, rfl⟩ := List.mem_map.1 hn
    exact .literal w.ne

theorem plain_ofText (t : Text) : ∀ n ∈ Node.ofText t, n.Plain := by
  intro n hn
  rw [Node.ofText] at hn
  split at hn
  · cases hn
  · rename_i ne
    obtain rfl := List.mem_singleton.1 hn
    exact .literal ne

theorem plain_parts (lead : Bool) (ws : List PlainWord) (cs : List Clause) :
    ∀ n ∈ parts lead ws cs, n.Plain := by
  induction cs generalizing lead ws with
  | nil => simp [parts]
  | cons c rest ih =>
    have bracketed : ∀ n ∈ Node.ofText (pending lead ws) ++ c.node :: parts true [] rest, n.Plain :=
      List.forall_mem_append.2 ⟨plain_ofText _, List.forall_mem_cons.2 ⟨c.plain_node, ih true []⟩⟩
    cases c with
    | word w =>
      rw [parts]
      split
      · exact List.forall_mem_singleton.2 (.literal (List.append_ne_nil_of_right_ne_nil _ w.ne))
      · exact ih lead (ws ++ [w])
    | optional | choice | bare => exact bracketed

end Clause

namespace Matcher

variable {cs : List Clause}

/-- An expression in clauses has a matcher, and what that recognises is exactly this: for each clause
one of the things it may stand for, their words in order with white space between neighbours. White
space at the end passes if the last clause is an optional phrase that is left out and not all of the
others are optional. -/
theorem recognises_clauses_iff (types : DataTypes) (factories : AssertionFactories) (default : Locale)
    (ne : cs ≠ []) (opens : Clause.Opens cs) :
    ∃ m, compile types factories default (Clause.writeAll cs) = .ok m ∧ ∀ l t, m.Recognises l t ↔
      ∃ wss, List.Forall₂ (fun ws c => ws ∈ Clause.selections c) wss cs ∧
        t ∈ Clause.spread wss.flatten * Clause.trail (Clause.isSlack cs wss) := by
  have parsed := Node.parse_clauses ne
  have some_ := Clause.parts_ne_nil false [] ne
  have plain := Node.plain_ofParts some_ (Clause.plain_parts false [] cs)
  obtain ⟨p, renders⟩ := Pattern.exists_renders plain
  obtain ⟨r, read, accepts⟩ := (Pattern.writes_row .extended _).read?_anchored
  rw [← renders.regex] at read
  obtain ⟨m, compiled, recognises⟩ :=
    exists_compile_of_pattern parsed (Fragment.ofNode_plain plain renders) read
  refine ⟨m, compiled, fun l t => ?_⟩
  rw [recognises, accepts, Pattern.rowOf_ofParts some_, Clause.rowLanguage_whole ne opens,
    Clause.mem_whole_iff opens]

/-- With an optional phrase that is left out at either end, and a choice of words. -/
theorem recognises_clauses_of_request : ∃ cs,
    Clause.writeAll cs = "(please do) add red|green (now)".toList ∧ cs ≠ [] ∧ Clause.Opens cs ∧
      ∃ m, compile .standard .standard .default (Clause.writeAll cs) = .ok m ∧
        m.Recognises .default "add\t green ".toList := by
  let word (t : Text) (ne : t ≠ []) (ink : t.all isInk = true) (tame : t ≠ ['*']) : PlainWord :=
    ⟨⟨t, ne, List.all_eq_true.1 ink⟩, tame⟩
  let please := word "please".toList (by decide) (by decide) (by decide)
  let doing := word "do".toList (by decide) (by decide) (by decide)
  let add := word "add".toList (by decide) (by decide) (by decide)
  let red := word "red".toList (by decide) (by decide) (by decide)
  let green := word "green".toList (by decide) (by decide) (by decide)
  let now := word "now".toList (by decide) (by decide) (by decide)
  let cs : List Clause :=
    [.optional ⟨please, [doing]⟩, .word add, .bare red green [], .optional ⟨now, []⟩]
  have opens : Clause.Opens cs := fun _ c own => by
    cases own
    rfl
  obtain ⟨m, compiled, recognises⟩ :=
    recognises_clauses_iff .standard .standard .default (List.cons_ne_nil _ _ : cs ≠ []) opens
  refine ⟨cs, rfl, List.cons_ne_nil _ _, opens, m, compiled, (recognises _ _).2 ?_⟩
  refine ⟨[[], [add], [green], []], ?_, ?_⟩
  · simp [Clause.selections]
  · have front : "\t green".toList ∈ Clause.follow [green] := by
      rw [Clause.follow, List.map_singleton, List.prod_singleton]
      exact Language.append_mem_mul (a := "\t ".toList) ⟨by decide, List.all_eq_true.1 rfl⟩ rfl
    have words : "add\t green".toList ∈ Clause.spread [add, green] :=
      Language.append_mem_mul (a := "add".toList) rfl front
    have loose : " ".toList ∈ Regex.slack := List.all_eq_true.1 rfl
    exact Language.append_mem_mul words loose

end Matcher
end StepMatch
