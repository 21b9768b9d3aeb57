import StepMatch.Proofs.Expression.Joined
import StepMatch.Proofs.Matcher.Recognition

/-!
# Reconstructed expressions

What a matcher does depends on the tree of its expression, and not on where the slots stand in it. So a
settled tree, written as an expression again, has the same matcher but for the expression itself.
-/

namespace StepMatch

mutual

/-- How specific a tree is does not depend on the places of its slots. -/
theorem Specificity.ofNode_unplaced : ∀ n : Node, ofNode n.unplaced = ofNode n
  | .sequence children => by
    rw [Node.unplaced, ofNode, ofNode, ofNodes_unplaced children]
  | .choice _ alternatives => by
    rw [Node.unplaced, ofNode, ofNode, ofNodes_unplaced alternatives]
  | .optional child | .negation _ child => by
    rw [Node.unplaced, ofNode, ofNode, ofNode_unplaced child]
  | .literal _ | .wildcard | .argument .. | .assertion .. => rfl

theorem Specificity.ofNodes_unplaced : ∀ ns : List Node, ofNodes (Node.unplacedEach ns) = ofNodes ns
  | [] => rfl
  | n :: ns => by
    rw [Node.unplacedEach, ofNodes, ofNodes, ofNode_unplaced n, ofNodes_unplaced ns]

end

namespace Fragment

/-- The fragment with a slot at the start of the expression. -/
def unplaced : Fragment → Fragment
  | .pattern p => .pattern p
  | .argument slot => .argument { slot with position := 0 }
  | .assertion slot => .assertion { slot with position := 0 }

variable {n : Node} {ns : List Node}

theorem map_unplaced_pushPattern (p : Pattern) (before : List Fragment) :
    (pushPattern p before).map unplaced = pushPattern p (before.map unplaced) := by
  match before with
  | [] | .pattern _ :: _ | .argument _ :: _ | .assertion _ :: _ => rfl

theorem push_of_not_slot (passed : n.isSlot = false) (before : List Fragment) :
    push before n = (Pattern.ofNode n).map fun p => pushPattern p before := by
  cases n with
  | argument | assertion => cases passed
  | _ => rfl

theorem push_unplaced (outer : n.Outer) (before : List Fragment) :
    push (before.map unplaced) n.unplaced = (push before n).map (List.map unplaced) := by
  cases slot : n.isSlot with
  | true =>
    cases n with
    | argument | assertion => rfl
    | _ => cases slot
  | false =>
    have same := outer.unplaced_eq.resolve_right (ne_true_of_eq_false slot)
    rw [same, push_of_not_slot slot, push_of_not_slot slot]
    cases Pattern.ofNode n with
    | error fault => rfl
    | ok p => exact congrArg Except.ok (map_unplaced_pushPattern p before).symm

/-- The fragments of a tree do not depend on the places of its slots, but for their places. -/
theorem foldlM_unplaced (outer : ∀ n ∈ ns, n.Outer) (before : List Fragment) :
    (ns.map Node.unplaced).foldlM push (before.map unplaced) =
      (ns.foldlM push before).map (List.map unplaced) := by
  induction ns generalizing before with
  | nil => rfl
  | cons n ns ih =>
    obtain ⟨own, others⟩ := List.forall_mem_cons.1 outer
    rw [List.map_cons, List.foldlM_cons, List.foldlM_cons, push_unplaced own]
    cases push before n with
    | error fault => rfl
    | ok after => exact ih others after

/-- Trees that differ in the places of slots alone have fragments that do. -/
theorem map_unplaced_of_ofNode {n' : Node} {fragments fragments' : List Fragment}
    (outer : ∀ m ∈ n.parts, m.Outer) (outer' : ∀ m ∈ n'.parts, m.Outer)
    (same : n'.parts.map Node.unplaced = n.parts.map Node.unplaced) (made : ofNode n = .ok fragments)
    (made' : ofNode n' = .ok fragments') : fragments'.map unplaced = fragments.map unplaced := by
  obtain ⟨before, pushed, rfl⟩ := ok_of_map made
  obtain ⟨before', pushed', rfl⟩ := ok_of_map made'
  have own := foldlM_unplaced outer []
  have own' := foldlM_unplaced outer' []
  rw [same, own, pushed, pushed'] at own'
  rw [List.map_reverse, List.map_reverse, ← Except.ok.inj own']

end Fragment

/-- What a slot is bound to does not depend on its place. -/
theorem Piece.toOption_bind_unplaced (types : DataTypes) (factories : AssertionFactories) (f : Fragment) :
    (bind types factories f.unplaced).toOption = (bind types factories f).toOption := by
  cases f with
  | pattern p => rfl
  | argument slot =>
    rw [Fragment.unplaced, bind, bind]
    cases types.find slot.typeName <;> rfl
  | assertion slot =>
    rw [Fragment.unplaced, bind, bind]
    cases factories.find slot.name <;> rfl

namespace Matcher

variable {types : DataTypes} {factories : AssertionFactories} {default l : Locale}
  {expression expression' : Text} {n n' : Node}

/-- The matcher of an expression that has a tree. -/
theorem toOption_ofExpression {fragments : List Fragment} (parsed : Node.parse expression = .ok n)
    (made : Fragment.ofNode n = .ok fragments) : (ofExpression types factories expression).toOption =
      (fragments.mapM (Piece.bind types factories)).toOption.map fun pieces =>
        ⟨expression, pieces, .ofNode n⟩ := by
  rw [ofExpression, parsed]
  dsimp only
  rw [made]
  dsimp only
  cases fragments.mapM (Piece.bind types factories) <;> rfl

/-- Expressions with the same tree but for the places of slots have the same matcher but for the
expression. -/
theorem toOption_compile_of_unplaced (parsed : Node.parse expression = .ok n)
    (parsed' : Node.parse expression' = .ok n') (same : n'.unplaced = n.unplaced) :
    (compile types factories default expression').toOption =
      (compile types factories default expression).toOption.map
        fun m => { m with expression := expression' } := by
  have outer := (Node.isRooted_of_parse parsed).outer
  have outer' := (Node.isRooted_of_parse parsed').outer
  obtain ⟨before, pushed⟩ := Fragment.exists_foldlM outer []
  obtain ⟨before', pushed'⟩ := Fragment.exists_foldlM outer' []
  have made : Fragment.ofNode n = .ok before.reverse := by
    rw [Fragment.ofNode, pushed]
    rfl
  have made' : Fragment.ofNode n' = .ok before'.reverse := by
    rw [Fragment.ofNode, pushed']
    rfl
  have parts : n'.parts.map Node.unplaced = n.parts.map Node.unplaced := by
    rw [← Node.parts_unplaced, same, Node.parts_unplaced]
  have fragments := Fragment.map_unplaced_of_ofNode outer outer' parts made made'
  have bound (fs : List Fragment) : (fs.mapM (Piece.bind types factories)).toOption =
      ((fs.map Fragment.unplaced).mapM (Piece.bind types factories)).toOption :=
    toOption_mapM fun f _ => (Piece.toOption_bind_unplaced types factories f).symm
  have specificity : Specificity.ofNode n' = .ofNode n := by
    rw [← Specificity.ofNode_unplaced n', same, Specificity.ofNode_unplaced]
  have pieces : (ofExpression types factories expression').toOption =
      (ofExpression types factories expression).toOption.map
        fun m => { m with expression := expression' } := by
    rw [toOption_ofExpression parsed made, toOption_ofExpression parsed' made', bound, fragments, ← bound,
      specificity, Option.map_map]
    rfl
  rw [compile, compile, Reading.toOption_bind, Reading.toOption_bind, pieces]
  cases ofExpression types factories expression with
  | error fault => rfl
  | ok m =>
    have program : ({ m with expression := expression' } : Matcher).program default = m.program default := rfl
    simp only [Except.toOption, Option.map_some, Option.bind_some, program]
    cases m.program default <;> rfl

/-- If the tree of an expression is settled once it is joined, and no slot holds a structural character,
then what the tree is written as can be read, and it has the slots of the expression in order. If the
tree is settled as it is, it has the same matcher too, but for the expression, whatever is registered. -/
theorem exists_parse_toExpression_of_settled (parsed : Node.parse expression = .ok n)
    (settled : n.joined.isSettled = true) (plain : ∀ m ∈ n.parts, m.isPlainSlot = true) :
    (∃ n', Node.parse n.toExpression = .ok n' ∧ n'.unplaced = n.joined.unplaced ∧
      (n'.parts.filter Node.isSlot).map Node.unplaced = (n.parts.filter Node.isSlot).map Node.unplaced) ∧
    (n.isSettled = true → ∀ (types : DataTypes) (factories : AssertionFactories) (default : Locale),
      (compile types factories default n.toExpression).toOption =
        (compile types factories default expression).toOption.map
          fun m => { m with expression := n.toExpression }) := by
  have rooted := Node.isRooted_of_parse parsed
  obtain ⟨n', parsed', same⟩ := Node.exists_parse_of_joined rooted settled plain
  refine ⟨⟨n', parsed', same, ?_⟩, ?_⟩
  · have parts : n'.parts.map Node.unplaced = n.joined.parts.map Node.unplaced := by
      rw [← Node.parts_unplaced, same, Node.parts_unplaced]
    rw [Node.map_unplaced_filter_isSlot, parts, ← Node.map_unplaced_filter_isSlot, Node.parts_joined,
      Node.filter_isSlot_joinedEach rooted.outer]
  · intro settled types factories default
    rw [Node.joined_of_settled rooted settled] at same
    exact toOption_compile_of_unplaced parsed parsed' same

/-- With brackets around a word that is ruled out, and others around an optional one. -/
theorem exists_parse_toExpression_of_groups : ∃ n n',
    Node.parse "^[stop] go {count:integer}[(times)]".toList = .ok n ∧
      n.toExpression = "^stop go {count:integer}(times)".toList ∧
      Node.parse n.toExpression = .ok n' ∧
      (n'.parts.filter Node.isSlot).map Node.unplaced = [.argument "count:integer".toList 0] ∧
      (compile .standard .standard .default n.toExpression).toOption =
        (compile .standard .standard .default "^[stop] go {count:integer}[(times)]".toList).toOption.map
          fun m => { m with expression := n.toExpression } := by
  let n : Node := .sequence [.negation .word (.literal "stop".toList), .literal " go ".toList,
    .argument "count:integer".toList 11, .optional (.literal "times".toList)]
  have scanned : (Token.scan "^[stop] go {count:integer}[(times)]".toList).toOption = some
      [⟨.negation, 0, 1⟩, ⟨.startGroup, 1, 2⟩, ⟨.text "stop".toList, 2, 6⟩, ⟨.endGroup, 6, 7⟩,
        ⟨.text " go ".toList, 7, 11⟩, ⟨.startArgument, 11, 12⟩, ⟨.text "count:integer".toList, 12, 25⟩,
        ⟨.endArgument, 25, 26⟩, ⟨.startGroup, 26, 27⟩, ⟨.startOptional, 27, 28⟩,
        ⟨.text "times".toList, 28, 33⟩, ⟨.endOptional, 33, 34⟩, ⟨.endGroup, 34, 35⟩] := by
    decide +kernel
  have parsed : Node.parse "^[stop] go {count:integer}[(times)]".toList = .ok n :=
    Node.parse_of_tokens scanned rfl
  obtain ⟨⟨n', parsed', -, slots⟩, same⟩ :=
    exists_parse_toExpression_of_settled parsed (by decide) (by decide)
  exact ⟨n, n', parsed, by decide, parsed', slots, same (by decide) .standard .standard .default⟩

/-- A negated word in brackets goes on in the word behind it where the brackets are not written. An
escaped bracket in a slot is written without the escape, and this cannot be read. -/
theorem exists_toExpression_changed :
    (∃ n m m', Node.parse "^[a]b".toList = .ok n ∧ n.toExpression = "^ab".toList ∧
      compile .standard .standard .default "^[a]b".toList = .ok m ∧
      compile .standard .standard .default n.toExpression = .ok m' ∧
      ¬ m.Recognises .default "x".toList ∧ m'.Recognises .default "x".toList) ∧
    ∃ n, Node.parse "\x7ba\\(b\x7d".toList = .ok n ∧ n.toExpression = "\x7ba(b\x7d".toList ∧
      (Node.parse n.toExpression).toOption = none := by
  let n : Node := .sequence [.negation .word (.literal "a".toList), .literal "b".toList]
  have parsed : Node.parse "^[a]b".toList = .ok n := rfl
  have written : n.toExpression = "^ab".toList := by decide
  obtain ⟨m, compiled, refused⟩ := exists_ok (x := compile .standard .standard .default "^[a]b".toList)
    (p := fun m => (m.matchIn .default "x".toList).toOption.any Option.isNone) (by decide +kernel)
  obtain ⟨missed, result, none⟩ := exists_ok refused
  obtain ⟨m', compiled', matched⟩ := exists_ok (x := compile .standard .standard .default "^ab".toList)
    (p := fun m => (m.matchIn .default "x".toList).toOption.any Option.isSome) (by decide +kernel)
  obtain ⟨found, result', some⟩ := exists_ok matched
  refine ⟨⟨n, m, m', parsed, written, compiled, written ▸ compiled', ?_, ?_, ?_⟩, ?_⟩
  · intro recognised
    rw [Option.isNone_iff_eq_none.1 none] at result
    exact recognised.fits result
  · obtain ⟨p, built, -⟩ := ok_of_bind result'
    exact ⟨p, built⟩
  · rw [result']
    rintro ⟨⟩
    cases some
  · exact ⟨.argument "a(b".toList 0, rfl, by decide, rfl⟩

end Matcher

end StepMatch
