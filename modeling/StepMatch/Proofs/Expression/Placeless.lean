import StepMatch.Proofs.Expression.Trees

/-!
# Places do not matter

A token carries the bytes that it was read from, and a slot the byte at which it opens. Reading never
looks at them: tokens with the same symbols lead to the same tree but for the places of its slots, or
are all refused.
-/

namespace StepMatch

namespace Node

mutual

/-- The tree with every slot at the start of the expression. -/
def unplaced : Node → Node
  | .sequence children => .sequence (unplacedEach children)
  | .optional child => .optional (unplaced child)
  | .choice delimiter alternatives => .choice delimiter (unplacedEach alternatives)
  | .negation scope child => .negation scope (unplaced child)
  | .argument t _ => .argument t 0
  | .assertion t _ => .assertion t 0
  | .literal t => .literal t
  | .wildcard => .wildcard

/-- Each of the trees with every slot at the start of the expression. -/
def unplacedEach : List Node → List Node
  | [] => []
  | n :: ns => unplaced n :: unplacedEach ns

end

@[simp] theorem unplacedEach_eq_map (ns : List Node) : unplacedEach ns = ns.map unplaced := by
  induction ns with
  | nil => rfl
  | cons n ns ih => rw [unplacedEach, ih, List.map_cons]

theorem standsAlone_unplaced (scope : NegationScope) (n : Node) :
    n.unplaced.standsAlone scope = n.standsAlone scope := by
  cases n with
  | choice delimiter alternatives => cases delimiter <;> rfl
  | _ => rfl

mutual

/-- A tree is written without the places of its slots. -/
theorem toExpression_unplaced : ∀ n : Node, n.unplaced.toExpression = n.toExpression
  | .sequence children => concatExpression_unplaced children
  | .optional child => by simp only [unplaced, toExpression, toExpression_unplaced child]
  | .choice delimiter alternatives => by
    simp only [unplaced, toExpression, choiceExpression_unplaced alternatives]
  | .negation scope child => by
    simp only [unplaced, toExpression, standsAlone_unplaced, toExpression_unplaced child]
  | .argument .. | .assertion .. | .literal _ | .wildcard => rfl

theorem concatExpression_unplaced :
    ∀ ns : List Node, concatExpression (unplacedEach ns) = concatExpression ns
  | [] => rfl
  | n :: ns => by
    simp only [unplacedEach, concatExpression, toExpression_unplaced n, concatExpression_unplaced ns]

theorem choiceExpression_unplaced :
    ∀ ns : List Node, choiceExpression (unplacedEach ns) = choiceExpression ns
  | [] => rfl
  | [n] => by simp only [unplacedEach, choiceExpression, toExpression_unplaced n]
  | n :: m :: ns => by
    have later := choiceExpression_unplaced (m :: ns)
    simp only [unplacedEach] at later
    simp only [unplacedEach, choiceExpression, toExpression_unplaced n, later]

end

theorem unplaced_ofParts (ns : List Node) : (ofParts ns).unplaced = ofParts (ns.map unplaced) := by
  match ns with
  | [] | [_] | _ :: _ :: _ => simp [ofParts, unplaced]

end Node

/-- The token as if it were read at the start of the expression. -/
def Token.unplaced (token : Token) : Token := ⟨token.symbol, 0, 0⟩

@[simp] theorem Token.unplaced_symbol (token : Token) : token.unplaced.symbol = token.symbol := rfl

theorem Token.exists_of_map_unplaced {tokens later : List Token} {symbol : Symbol} {start stop : Nat}
    (h : tokens.map Token.unplaced = ⟨symbol, start, stop⟩ :: later) : ∃ start stop rest,
      tokens = ⟨symbol, start, stop⟩ :: rest ∧ rest.map Token.unplaced = later := by
  obtain ⟨⟨_, start, stop⟩, rest, rfl, own, rfl⟩ := List.map_eq_cons_iff.1 h
  cases own
  exact ⟨start, stop, rest, rfl, rfl⟩

namespace Bracket

/-- The bracket with everything at the start of the expression. -/
def unplaced (b : Bracket) : Bracket :=
  ⟨b.opener.unplaced, b.delimiter, b.negated, b.finished.map (List.map Node.unplaced),
    b.before.map Node.unplaced⟩

@[simp] theorem closer_unplaced (b : Bracket) : b.unplaced.closer = b.closer := rfl

theorem node_unplaced (b : Bracket) (last : List Node) :
    (b.unplaced.node (last.map Node.unplaced)).toOption =
      (b.node last).toOption.map Node.unplaced := by
  obtain ⟨opener, delimiter, negated, finished, before⟩ := b
  cases finished with
  | nil =>
    simp only [unplaced, node, List.map_nil, List.isEmpty_map]
    cases last.isEmpty with
    | true => rfl
    | false => cases delimiter <;> simp [Except.toOption, Node.unplaced, Node.unplaced_ofParts]
  | cons ns finished =>
    have same : (last.map Node.unplaced :: ((ns :: finished).map (List.map Node.unplaced))).reverse =
        (last :: ns :: finished).reverse.map (List.map Node.unplaced) := by
      rw [List.map_reverse]
      rfl
    have empty : ((last :: ns :: finished).reverse.map (List.map Node.unplaced)).any List.isEmpty =
        (last :: ns :: finished).reverse.any List.isEmpty := by
      simp [List.any_map, Function.comp_def]
    rw [List.map_cons] at same
    simp only [unplaced, node, List.map_cons, same, empty]
    cases (last :: ns :: finished).reverse.any List.isEmpty with
    | true => rfl
    | false =>
      simp [Except.toOption, Node.unplaced, Function.comp_def, Node.unplaced_ofParts]

end Bracket

namespace Node

theorem map_unplaced_carveFrom (fresh : Bool) (t : Text) :
    (carveFrom fresh t).map unplaced = carveFrom fresh t := by
  have same : ∀ n ∈ carveFrom fresh t, n.unplaced = n :=
    forall_carveFrom (by rw [unplaced]) (fun t _ => by rw [unplaced]) fresh t
  rw [List.map_congr_left same, List.map_id']

end Node

namespace Reading

/-- The reading with everything at the start of the expression. -/
def unplaced (s : Reading) : Reading :=
  ⟨s.parts.map Node.unplaced, s.brackets.map Bracket.unplaced, s.asserted⟩

variable {s : Reading} {token : Token}

theorem unplaced_pushText (s : Reading) (t : Text) :
    (s.pushText t).unplaced = s.unplaced.pushText t := by
  simp [unplaced, pushText, Node.carve, Node.map_unplaced_carveFrom]

theorem unplaced_openBracket (s : Reading) (opener : Token) (delimiter : Delimiter)
    (negated : Bool) : (s.openBracket opener delimiter negated).unplaced =
      s.unplaced.openBracket opener.unplaced delimiter negated := rfl

theorem unplaced_nextAlternative (s : Reading) (b : Bracket) (outer : List Bracket) :
    (s.nextAlternative b outer).unplaced =
      s.unplaced.nextAlternative b.unplaced (outer.map Bracket.unplaced) := by
  simp [unplaced, nextAlternative, Bracket.unplaced]

theorem unplaced_negate (n : Node) : (negate n).unplaced = negate n.unplaced := by
  rw [negate, negate, Node.toExpression_unplaced, Node.unplaced]

theorem unplaced_afterBracket (s : Reading) (b : Bracket) (outer : List Bracket) (n : Node) :
    (s.afterBracket b outer n).unplaced =
      s.unplaced.afterBracket b.unplaced (outer.map Bracket.unplaced) n.unplaced := by
  unfold afterBracket
  have same : b.unplaced.negated = b.negated := rfl
  rw [same]
  split
  · simp [unplaced, push, Bracket.unplaced, unplaced_negate]
  · cases n <;> cases outer <;> simp [unplaced, push, Bracket.unplaced, Node.unplaced]

/-- What closing a bracket comes to, if it comes to anything. -/
theorem toOption_closeBracket (s : Reading) (token : Token) :
    (s.closeBracket token).toOption = match s.brackets with
      | [] => none
      | b :: outer => if token.symbol = b.closer then
          (b.node s.parts.reverse).toOption.map (s.afterBracket b outer) else none := by
  unfold closeBracket
  cases s.brackets with
  | nil => rfl
  | cons b outer =>
    dsimp only
    split
    · cases b.node s.parts.reverse with
      | error fault => rfl
      | ok n =>
        simp only [bind, Except.bind, Except.toOption, Option.map_some, afterBracket]
        cases b.negated with
        | true => rfl
        | false => cases n <;> cases outer <;> rfl
    · rfl

theorem closeBracket_unplaced (s : Reading) (token : Token) :
    (s.unplaced.closeBracket token.unplaced).toOption =
      (s.closeBracket token).toOption.map unplaced := by
  rw [toOption_closeBracket, toOption_closeBracket]
  have parts : s.unplaced.parts.reverse = s.parts.reverse.map Node.unplaced :=
    List.map_reverse.symm
  have brackets : s.unplaced.brackets = s.brackets.map Bracket.unplaced := rfl
  rw [brackets, parts]
  cases s.brackets with
  | nil => rfl
  | cons b outer =>
    rw [List.map_cons]
    dsimp only
    rw [Token.unplaced_symbol, Bracket.closer_unplaced, Bracket.node_unplaced]
    split
    · simp only [Option.map_map, Function.comp_def, unplaced_afterBracket]
    · rfl

theorem chooseWord_unplaced (s : Reading) (bar : Token) (t : Text) :
    (s.unplaced.chooseWord bar.unplaced t).toOption =
      (s.chooseWord bar t).toOption.map unplaced := by
  unfold chooseWord
  have parts : s.unplaced.parts = s.parts.map Node.unplaced := rfl
  cases firstWord? t with
  | none => rfl
  | some cut =>
    obtain ⟨word, rest⟩ := cut
    dsimp only
    rw [parts]
    obtain _ | ⟨n, before⟩ := s.parts
    · rfl
    · cases n with
      | choice delimiter alternatives =>
        cases delimiter with
        | bare =>
          simp only [List.map_cons, Node.unplaced]
          refine congrArg some ?_
          rw [unplaced_pushText]
          simp [unplaced, Node.unplaced]
        | _ => rfl
      | literal l =>
        simp only [List.map_cons, Node.unplaced]
        cases lastWord? l with
        | none => rfl
        | some cut =>
          obtain ⟨_ | ⟨c, head⟩, left⟩ := cut
          all_goals
            refine congrArg some ?_
            rw [unplaced_pushText]
            rfl
      | _ => rfl

theorem negateWord_unplaced (s : Reading) (caret : Token) (t : Text) :
    (s.unplaced.negateWord caret.unplaced t).toOption =
      (s.negateWord caret t).toOption.map unplaced := by
  unfold negateWord
  split
  · rfl
  · refine congrArg some ?_
    rw [unplaced_pushText]
    rfl

theorem pushSlot_unplaced (s : Reading) (opener : Token) (t : Text) :
    (s.unplaced.pushSlot opener.unplaced t).toOption =
      (s.pushSlot opener t).toOption.map unplaced := by
  unfold pushSlot
  have asserted : s.unplaced.asserted = s.asserted := rfl
  simp only [Token.unplaced_symbol, asserted]
  split
  · split
    · rfl
    · split <;> rfl
  · split
    · rfl
    · split <;> rfl

theorem toOption_bind {ε α β : Type*} (x : Except ε α) (f : α → Except ε β) :
    (x.bind f).toOption = x.toOption.bind fun a => (f a).toOption := by
  cases x <;> rfl

/-- Reading tokens comes to the same wherever they stand. -/
theorem run_unplaced (s : Reading) (tokens : List Token) :
    (s.unplaced.run (tokens.map Token.unplaced)).toOption =
      (s.run tokens).toOption.map (List.map Node.unplaced) := by
  have bound {x x' : Except Fault Reading} {later : List Token}
      (same : x'.toOption = x.toOption.map unplaced)
      (ih : ∀ s : Reading, (s.unplaced.run (later.map Token.unplaced)).toOption =
        (s.run later).toOption.map (List.map Node.unplaced)) :
      (x'.bind fun s => s.run (later.map Token.unplaced)).toOption =
        (x.bind fun s => s.run later).toOption.map (List.map Node.unplaced) := by
    rw [toOption_bind, toOption_bind, same]
    cases x with
    | error fault => rfl
    | ok s => exact ih s
  fun_induction Reading.run s tokens with
  | case1 s outside =>
    have outside' : s.unplaced.brackets = [] := by
      rw [unplaced, outside]
      rfl
    rw [List.map_nil, run, outside']
    exact congrArg some List.map_reverse.symm
  | case2 s b outer brackets =>
    have brackets' : s.unplaced.brackets = b.unplaced :: outer.map Bracket.unplaced := by
      rw [unplaced, brackets]
      rfl
    rw [List.map_nil, run, brackets']
    rfl
  | case3 s token rest t symbol ih =>
    rw [List.map_cons, run.eq_def]
    simp only [Token.unplaced_symbol, symbol]
    rw [← unplaced_pushText, ih]
  | case4 s token rest symbol ih | case5 s token rest symbol ih =>
    rw [List.map_cons, run.eq_def]
    simp only [Token.unplaced_symbol, symbol]
    rw [← unplaced_openBracket, ih]
  | case6 s token rest symbol ih | case7 s token rest symbol ih =>
    rw [List.map_cons, run.eq_def]
    simp only [Token.unplaced_symbol, symbol]
    exact bound (closeBracket_unplaced s token) ih
  | case8 s token symbol b outer rest brackets ih =>
    have brackets' : s.unplaced.brackets = b.unplaced :: outer.map Bracket.unplaced := by
      rw [unplaced, brackets]
      rfl
    rw [List.map_cons, run.eq_def]
    simp only [Token.unplaced_symbol, symbol, brackets']
    rw [← unplaced_nextAlternative, ih]
  | case9 s token symbol t start stop rest outside ih =>
    have outside' : s.unplaced.brackets = [] := by
      rw [unplaced, outside]
      rfl
    rw [List.map_cons, run.eq_def]
    simp only [symbol, outside', List.map_cons, Token.unplaced]
    exact bound (chooseWord_unplaced s token t) ih
  | case10 s token rest symbol outside other =>
    have outside' : s.unplaced.brackets = [] := by
      rw [unplaced, outside]
      rfl
    rw [List.map_cons, run.eq_def]
    simp only [Token.unplaced_symbol, symbol, outside']
    split
    · rename_i brackets
      cases brackets
    · rename_i e
      obtain ⟨start, stop, later, rfl, -⟩ := Token.exists_of_map_unplaced e
      exact absurd rfl (other _ start stop later)
    · rfl
  | case11 s token symbol t start stop rest ih =>
    rw [List.map_cons, run.eq_def]
    simp only [symbol, List.map_cons, Token.unplaced]
    exact bound (negateWord_unplaced s token t) ih
  | case12 s token symbol start stop rest ih =>
    rw [List.map_cons, run.eq_def]
    simp only [symbol, List.map_cons, Token.unplaced]
    exact ih
  | case13 s token rest symbol notText notGroup =>
    rw [List.map_cons, run.eq_def]
    simp only [Token.unplaced_symbol, symbol]
    split
    · rename_i e
      obtain ⟨start, stop, later, rfl, -⟩ := Token.exists_of_map_unplaced e
      exact absurd rfl (notText _ start stop later)
    · rename_i e
      obtain ⟨start, stop, later, rfl, -⟩ := Token.exists_of_map_unplaced e
      exact absurd rfl (notGroup start stop later)
    · rfl
  | case14 s token symbol outside t start stop start' stop' rest ih
  | case18 s token symbol outside t start stop start' stop' rest ih =>
    have outside' : s.unplaced.brackets.isEmpty = true := by rwa [unplaced, List.isEmpty_map]
    have shape : slotShape token.unplaced = slotShape token := rfl
    rw [List.map_cons, run.eq_def]
    simp only [Token.unplaced_symbol, symbol, outside', if_true, List.map_cons]
    simp only [Token.unplaced] at shape ⊢
    simp only [shape, if_true]
    exact bound (pushSlot_unplaced s token t) ih
  | case15 s token symbol outside t start stop closer start' stop' rest other
  | case19 s token symbol outside t start stop closer start' stop' rest other =>
    have outside' : s.unplaced.brackets.isEmpty = true := by rwa [unplaced, List.isEmpty_map]
    have shape : slotShape token.unplaced = slotShape token := rfl
    rw [List.map_cons, run.eq_def]
    simp only [Token.unplaced_symbol, symbol, outside', if_true, List.map_cons]
    simp only [Token.unplaced] at shape ⊢
    simp only [shape, if_neg other]
    rfl
  | case16 s token rest symbol outside other | case20 s token rest symbol outside other =>
    have outside' : s.unplaced.brackets.isEmpty = true := by rwa [unplaced, List.isEmpty_map]
    rw [List.map_cons, run.eq_def]
    simp only [Token.unplaced_symbol, symbol, outside', if_true]
    split
    · rename_i e
      obtain ⟨start, stop, later, rfl, after⟩ := Token.exists_of_map_unplaced e
      obtain ⟨start', stop', later, rfl, -⟩ := Token.exists_of_map_unplaced after
      exact absurd rfl (other _ start stop _ start' stop' later)
    · rfl
  | case17 s token rest symbol inside | case21 s token rest symbol inside =>
    have inside' : ¬ s.unplaced.brackets.isEmpty = true := by rwa [unplaced, List.isEmpty_map]
    rw [List.map_cons, run.eq_def]
    simp only [Token.unplaced_symbol, symbol, if_neg inside']
    rfl
  | case22 s token rest symbol | case23 s token rest symbol =>
    rw [List.map_cons, run.eq_def]
    simp only [Token.unplaced_symbol, symbol]
    rfl

theorem run_unplaced_of_ok {tokens : List Token} {parts : List Node} (h : s.run tokens = .ok parts) :
    s.unplaced.run (tokens.map Token.unplaced) = .ok (parts.map Node.unplaced) := by
  have same := s.run_unplaced tokens
  rw [h] at same
  cases e : s.unplaced.run (tokens.map Token.unplaced) with
  | error fault =>
    rw [e] at same
    cases same
  | ok parts' =>
    rw [e] at same
    rw [Option.some.inj same]

theorem exists_run_of_unplaced {tokens : List Token} {parts' : List Node}
    (h : s.unplaced.run (tokens.map Token.unplaced) = .ok parts') :
    ∃ parts, s.run tokens = .ok parts ∧ parts.map Node.unplaced = parts' := by
  have same := s.run_unplaced tokens
  rw [h] at same
  cases e : s.run tokens with
  | error fault =>
    rw [e] at same
    cases same
  | ok parts =>
    rw [e] at same
    exact ⟨parts, rfl, (Option.some.inj same).symm⟩

end Reading

end StepMatch
