import StepMatch.Proofs.Expression.Placeless
import StepMatch.Proofs.Expression.Writing

/-!
# Blocks of symbols

Some symbols add the same parts wherever they are read: a run of text, a negated word, a pair of
brackets with what stands in it. Written out, such a block is what its parts are written as. What
stands in brackets is put together from blocks, with bars between alternatives.
-/

namespace StepMatch

/-- The token of a symbol at the start of an expression. -/
def Token.ofSymbol (symbol : Symbol) : Token := ⟨symbol, 0, 0⟩

/-- The symbols are scanned as they are written, and more may be written on either side. -/
structure Symbol.Tidy (symbols : List Symbol) : Prop where
  texts : .text [] ∉ symbols
  apart : symbols.IsChain Symbol.Apart
  first : ∀ symbol ∈ symbols.head?, symbol ≠ .endArgument ∧ symbol ≠ .endAssertion
  last : ∀ symbol ∈ symbols.getLast?, symbol ≠ .startArgument

/-- The symbols end with text. -/
def Symbol.EndsInText (symbols : List Symbol) : Prop := ∃ t, symbols.getLast? = some (.text t)

/-- The symbols start with text. -/
def Symbol.StartsWithText (symbols : List Symbol) : Prop := ∃ t, symbols.head? = some (.text t)

namespace Symbol

variable {xs ys : List Symbol} {x y : Symbol} {t : Text}

theorem apart_of (texts : ∀ t u, x = .text t → y ≠ .text u) (left : x ≠ .startArgument)
    (right : y ≠ .endArgument ∧ y ≠ .endAssertion) : Apart x y := by
  cases x <;> cases y <;> simp_all [Apart]

theorem Tidy.nil : Tidy [] := ⟨by simp, .nil, by simp, by simp⟩

/-- Tidy symbols can be written next to each other unless two runs of text meet. -/
theorem Tidy.append (h : Tidy xs) (h' : Tidy ys) (apart : EndsInText xs → ¬ StartsWithText ys) :
    Tidy (xs ++ ys) where
  texts := by simp [h.texts, h'.texts]
  apart := List.isChain_append.2 ⟨h.apart, h'.apart, fun x hx y hy =>
    apart_of (fun t u e e' => apart ⟨t, e ▸ hx⟩ ⟨u, e' ▸ hy⟩) (h.last x hx) (h'.first y hy)⟩
  first x hx := by
    obtain _ | ⟨x', xs⟩ := xs
    · exact h'.first x hx
    · exact h.first x hx
  last x hx := by
    obtain rfl | ⟨ys, y', rfl⟩ := List.eq_nil_or_concat' ys
    · rw [List.append_nil] at hx
      exact h.last x hx
    · exact h'.last x (by simpa using hx)

theorem Tidy.singleton (text : x ≠ .text []) (start : x ≠ .startArgument)
    (stop : x ≠ .endArgument ∧ x ≠ .endAssertion) : Tidy [x] :=
  ⟨by simpa using text.symm, .singleton _, by simpa using stop, by simpa using start⟩

/-- Brackets around tidy symbols. -/
theorem Tidy.brackets (h : Tidy xs) (round : Bool) : Tidy (opener round :: (xs ++ [closer round])) := by
  have opens : Tidy [opener round] := by
    cases round <;> exact .singleton (by decide) (by decide) (by decide)
  have closes : Tidy [closer round] := by
    cases round <;> exact .singleton (by decide) (by decide) (by decide)
  refine opens.append (h.append closes ?_) ?_
  · rintro - ⟨t, e⟩
    cases round <;> cases e
  · rintro ⟨t, e⟩
    cases round <;> cases e

theorem Tidy.negation (h : Tidy xs) : Tidy (.negation :: xs) :=
  (Tidy.singleton (by decide) (by decide) (by decide)).append h fun ⟨_, e⟩ => by cases e

end Symbol

namespace Node

variable {t : Text}

theorem concatExpression_append (ns ms : List Node) :
    concatExpression (ns ++ ms) = concatExpression ns ++ concatExpression ms := by
  induction ns with
  | nil => rfl
  | cons n ns ih => rw [List.cons_append, concatExpression, concatExpression, ih, List.append_assoc]

theorem toExpression_ofParts (ns : List Node) : (ofParts ns).toExpression = concatExpression ns := by
  match ns with
  | [] | _ :: _ :: _ => rfl
  | [n] => exact (List.append_nil _).symm

theorem eq_singleton_of_ofParts {ns : List Node} {n : Node} (h : ofParts ns = n)
    (other : ∀ children, n ≠ .sequence children) : ns = [n] := by
  match ns, h with
  | [m], rfl => rfl
  | [], rfl | _ :: _ :: _, rfl => exact absurd rfl (other _)

/-- The alternatives of a choice but for the last one are written with a bar after each. -/
theorem choiceExpression_concat (ns : List Node) (n : Node) : choiceExpression (ns ++ [n]) =
    (ns.flatMap fun m => m.toExpression ++ ['|']) ++ n.toExpression := by
  induction ns with
  | nil => rfl
  | cons m ns ih =>
    have more : ns ++ [n] ≠ [] := by simp
    obtain ⟨k, ks, e⟩ := List.exists_cons_of_ne_nil more
    rw [List.cons_append, e, choiceExpression, ← e, ih, List.flatMap_cons]
    · simp
    · simp

/-- One more alternative is written after one more bar. -/
theorem choiceExpression_append {ns : List Node} (ne : ns ≠ []) (n : Node) :
    choiceExpression (ns ++ [n]) = choiceExpression ns ++ '|' :: n.toExpression := by
  obtain rfl | ⟨ns, m, rfl⟩ := List.eq_nil_or_concat' ns
  · exact absurd rfl ne
  · rw [choiceExpression_concat, choiceExpression_concat]
    simp

theorem concatExpression_consLiteral (c : Char) (ns : List Node) :
    concatExpression (consLiteral c ns) = escapeLiteral [c] ++ concatExpression ns := by
  rw [consLiteral.eq_def]
  split
  · simp [concatExpression, toExpression, escapeLiteral]
  · simp [concatExpression, toExpression]

theorem concatExpression_carveFrom (fresh : Bool) (t : Text) :
    concatExpression (carveFrom fresh t) = escapeLiteral t := by
  induction t generalizing fresh with
  | nil => rfl
  | cons c t ih =>
    have split : escapeLiteral (c :: t) = escapeLiteral [c] ++ escapeLiteral t := by
      simp [escapeLiteral]
    rw [carveFrom, split]
    split
    · rename_i star
      simp only [Bool.and_eq_true, beq_iff_eq] at star
      rw [concatExpression, ih, star.1.1]
      rfl
    · rw [concatExpression_consLiteral, ih]

/-- Text is written as before once its wildcards are found. -/
theorem concatExpression_carve (t : Text) : concatExpression (carve t) = escapeLiteral t :=
  concatExpression_carveFrom true t

end Node

theorem escapeLiteral_injective : Function.Injective escapeLiteral := by
  intro t u e
  induction t generalizing u with
  | nil =>
    cases u with
    | nil => rfl
    | cons d u => cases own : isStructural d <;> simp [escapeLiteral, own] at e
  | cons c t ih =>
    cases u with
    | nil => cases own : isStructural c <;> simp [escapeLiteral, own] at e
    | cons d u =>
      -- a backslash is structural, so it is never written for itself
      have slash : ∀ c, isStructural c = false → '\\' ≠ c := by
        rintro c own rfl
        cases own
      cases own : isStructural c <;> cases own' : isStructural d <;>
        simp only [escapeLiteral, List.flatMap_cons, own, own', if_true, if_false,
          Bool.false_eq_true, List.cons_append, List.nil_append, List.cons.injEq] at e
      · rw [e.1, ih e.2]
      · exact absurd e.1.symm (slash c own)
      · exact absurd e.1 (slash d own')
      · rw [e.2.1, ih e.2.2]

theorem escapeLiteral_of_plain {t : Text} (h : ∀ c ∈ t, isStructural c = false) :
    escapeLiteral t = t := by
  induction t with
  | nil => rfl
  | cons c t ih =>
    obtain ⟨own, later⟩ := List.forall_mem_cons.1 h
    have split : escapeLiteral (c :: t) = c :: escapeLiteral t := by simp [escapeLiteral, own]
    rw [split, ih later]

theorem append_of_firstWord? {t word rest : Text} (h : firstWord? t = some (word, rest)) :
    word ++ rest = t := by
  rw [firstWord?.eq_def] at h
  split at h
  · cases h
  · cases h
    exact List.takeWhile_append_dropWhile

theorem append_of_lastWord? {t head word : Text} (h : lastWord? t = some (head, word)) :
    head ++ word = t := by
  rw [lastWord?.eq_def] at h
  split at h
  · cases h
  · cases h
    rw [← List.reverse_append, List.takeWhile_append_dropWhile, List.reverse_reverse]

/-- What a bracket stands for is a matter of its kind and its alternatives. -/
theorem Bracket.node_eq_ok {b b' : Bracket} {last : List Node} {n : Node}
    (delimiter : b.delimiter = b'.delimiter) (finished : b.finished = b'.finished)
    (made : b'.node last = .ok n) : b.node last = .ok n := by
  obtain ⟨opener, delimiter', negated, finished', before⟩ := b
  obtain rfl : delimiter' = b'.delimiter := delimiter
  obtain rfl : finished' = b'.finished := finished
  rw [node.eq_def] at made ⊢
  dsimp only
  split at made
  · split at made
    · cases made
    · rename_i some
      rw [if_neg some]
      exact made
  · simp only at made
    split at made
    · cases made
    · rename_i full
      simp only [if_neg full]
      exact made

/-- Brackets that do not only group stand for an optional part or for a choice. -/
theorem Bracket.node_shape {b : Bracket} {last : List Node} {n : Node} {round : Bool}
    (delimiter : b.delimiter = .ofRound round) (made : b.node last = .ok n)
    (kept : round = true ∨ b.finished ≠ []) :
    round = true ∧ b.finished = [] ∧ n = .optional (.ofParts last) ∨
      b.finished ≠ [] ∧ ∃ as, n = .choice (.ofRound round) as := by
  rw [node.eq_def, delimiter] at made
  split at made
  · rename_i none
    obtain rfl : round = true := by simpa [none] using kept
    split at made <;> cases made
    exact .inl ⟨rfl, none, rfl⟩
  · rename_i several
    simp only at made
    split at made <;> cases made
    exact .inr ⟨several, _, rfl⟩

/-- Square brackets with a single alternative stand for what is in them. -/
theorem Bracket.eq_ofParts {b : Bracket} {last : List Node} {n : Node} (delimiter : b.delimiter = .bracket)
    (finished : b.finished = []) (made : b.node last = .ok n) : n = .ofParts last := by
  rw [node.eq_def, finished, delimiter] at made
  simp only at made
  split at made <;> cases made
  rfl

namespace Reading

variable {xs ys : List Symbol} {s s' s'' : Reading} {t : Text} {added : List Node}
  {finished : List (List Node)} {last : List Node}

/-- Reading the symbols leads from one reading to the other. -/
def Leads (symbols : List Symbol) (s s' : Reading) : Prop :=
  ∀ rest, s.run (symbols.map Token.ofSymbol ++ rest) = s'.run rest

theorem Leads.nil : Leads [] s s := fun _ => rfl

theorem Leads.append (h : Leads xs s s') (h' : Leads ys s' s'') : Leads (xs ++ ys) s s'' := by
  intro rest
  rw [List.map_append, List.append_assoc, h, h']

theorem Leads.cons {x : Symbol} (h : Leads [x] s s') (h' : Leads xs s' s'') : Leads (x :: xs) s s'' :=
  h.append h'

/-- A closing bracket leaves what the innermost bracket stands for. -/
theorem leads_closer {b : Bracket} {outer : List Bracket} {n : Node} {round : Bool}
    (brackets : s.brackets = b :: outer) (delimiter : b.delimiter = .ofRound round)
    (made : b.node s.parts.reverse = .ok n) :
    Leads [.closer round] s (s.afterBracket b outer n) := by
  have closes : (Token.ofSymbol (.closer round)).symbol = b.closer := by
    rw [Bracket.closer, delimiter]
    cases round <;> rfl
  have closed : s.closeBracket (Token.ofSymbol (.closer round)) = .ok (s.afterBracket b outer n) :=
    closeBracket_eq_ok_iff.2 ⟨b, outer, n, brackets, closes, made, rfl⟩
  intro rest
  cases round with
  | true => exact congrArg (Except.bind · fun s' => run s' rest) closed
  | false => exact congrArg (Except.bind · fun s' => run s' rest) closed

/-- Wherever the symbols are read, they add the parts, and they are written as the parts are. -/
structure Block (symbols : List Symbol) (added : List Node) : Prop where
  tidy : Symbol.Tidy symbols
  written : symbols.flatMap Symbol.write = Node.concatExpression added
  leads : ∀ parts brackets asserted, Leads symbols ⟨parts, brackets, asserted⟩
    ⟨added.reverse ++ parts, brackets, asserted⟩

/-- The symbols make complete alternatives and parts of brackets that have been opened, wherever this
is. The alternatives and the parts are given last one first. -/
structure Interior (symbols : List Symbol) (finished : List (List Node)) (parts : List Node) :
    Prop where
  tidy : Symbol.Tidy symbols
  written : symbols.flatMap Symbol.write =
    (finished.reverse.flatMap fun ns => Node.concatExpression ns ++ ['|']) ++
      Node.concatExpression parts.reverse
  leads : ∀ (b : Bracket) outer asserted, b.finished = [] → Leads symbols
    ⟨[], b :: outer, asserted⟩ ⟨parts, { b with finished := finished } :: outer, asserted⟩

theorem Block.text (ne : t ≠ []) : Block [.text t] (Node.carve t) where
  tidy := .singleton (by simpa using ne) (by simp) (by simp)
  written := by simp [Symbol.write, Node.concatExpression_carve]
  leads parts brackets asserted rest := by
    simp [Token.ofSymbol, run, pushText]

theorem Block.negatedWord {word rest : Text} (first : firstWord? t = some (word, rest)) :
    Block [.negation, .text t] (.negation .word (.literal word) :: Node.carve rest) where
  tidy := by
    refine (Symbol.Tidy.singleton ?_ (by simp) (by simp)).negation
    rintro ⟨⟩
    cases first
  written := by
    simp [Symbol.write, Symbol.describe, Node.concatExpression, Node.toExpression, Node.standsAlone,
      Node.concatExpression_carve, ← append_of_firstWord? first, escapeLiteral_append]
  leads parts brackets asserted rest := by
    simp [Token.ofSymbol, run, negateWord, first, Except.bind, push, pushText]

namespace Interior

theorem nil : Interior [] [] [] where
  tidy := .nil
  written := rfl
  leads b outer asserted none := by
    rw [← none]
    exact .nil

theorem append (h : Interior xs finished last) (h' : Block ys added)
    (apart : Symbol.EndsInText xs → ¬ Symbol.StartsWithText ys) :
    Interior (xs ++ ys) finished (added.reverse ++ last) where
  tidy := h.tidy.append h'.tidy apart
  written := by
    rw [List.flatMap_append, h.written, h'.written, List.reverse_append, List.reverse_reverse,
      Node.concatExpression_append, List.append_assoc]
  leads b outer asserted none := (h.leads b outer asserted none).append (h'.leads _ _ _)

/-- A bar completes an alternative. -/
theorem bar (h : Interior xs finished last) :
    Interior (xs ++ [.choiceSeparator]) (last.reverse :: finished) [] where
  tidy := h.tidy.append (.singleton (by simp) (by simp) (by simp)) fun _ ⟨_, e⟩ => by cases e
  written := by
    rw [List.flatMap_append, h.written]
    simp [Symbol.write, Symbol.describe, Node.concatExpression]
  leads b outer asserted none := by
    refine (h.leads b outer asserted none).append fun rest => ?_
    simp [Token.ofSymbol, run, nextAlternative]

variable {b : Bracket} {n : Node} {round : Bool}

/-- A bracket of several alternatives is written as they are. -/
theorem toExpression_choice (h : Interior xs finished last) (several : finished ≠ [])
    (own : b.finished = finished) (delimiter : b.delimiter = .ofRound round)
    (made : b.node last.reverse = .ok n) : (∃ as, n = .choice (.ofRound round) as) ∧
      n.toExpression = (Symbol.opener round).describe ++ xs.flatMap Symbol.write ++
        (Symbol.closer round).describe := by
  rw [Bracket.node.eq_def, own] at made
  split at made
  · exact absurd rfl several
  · simp only at made
    split at made
    · cases made
    · cases made
      refine ⟨⟨_, by rw [delimiter]⟩, ?_⟩
      rw [Node.toExpression, h.written, delimiter, List.reverse_cons, List.map_append,
        List.map_singleton, Node.choiceExpression_concat]
      have front : ((finished.reverse.map Node.ofParts).flatMap fun m => m.toExpression ++ ['|']) =
          finished.reverse.flatMap fun ns => Node.concatExpression ns ++ ['|'] := by
        simp only [List.flatMap_map, Node.toExpression_ofParts]
      rw [front, Node.toExpression_ofParts]
      cases round <;> rfl

/-- Brackets in which there is a choice, and parentheses. -/
theorem bracket (h : Interior xs finished last) (own : b.finished = finished)
    (delimiter : b.delimiter = .ofRound round) (made : b.node last.reverse = .ok n)
    (kept : round = true ∨ finished ≠ []) :
    Block (.opener round :: (xs ++ [.closer round])) [n] := by
  have shape : (∀ children, n ≠ .sequence children) ∧ n.toExpression =
      (Symbol.opener round).describe ++ xs.flatMap Symbol.write ++ (Symbol.closer round).describe := by
    obtain ⟨rfl, none, rfl⟩ | ⟨several, -⟩ := Bracket.node_shape delimiter made (own.symm ▸ kept)
    · refine ⟨by simp, ?_⟩
      rw [Node.toExpression, Node.toExpression_ofParts, h.written, ← own, none]
      rfl
    · obtain ⟨⟨as, rfl⟩, written⟩ := h.toExpression_choice (own ▸ several) own delimiter made
      exact ⟨by simp, written⟩
  refine ⟨h.tidy.brackets round, ?_, fun parts brackets asserted => ?_⟩
  · rw [List.flatMap_cons, List.flatMap_append, Node.concatExpression, shape.2]
    cases round <;> simp [Symbol.write, Symbol.opener, Symbol.closer, Node.concatExpression]
  · let opened : Bracket := ⟨Token.ofSymbol (.opener round), .ofRound round, false, [], parts⟩
    have opens : Leads [.opener round] ⟨parts, brackets, asserted⟩ ⟨[], opened :: brackets, asserted⟩ := by
      intro rest
      cases round <;> rfl
    have made' : { opened with finished := finished }.node last.reverse = .ok n :=
      Bracket.node_eq_ok delimiter.symm own.symm made
    have closes := leads_closer (s := ⟨last, { opened with finished := finished } :: brackets, asserted⟩)
      rfl rfl made'
    have left : (Reading.mk last ({ opened with finished := finished } :: brackets) asserted).afterBracket
        { opened with finished := finished } brackets n = ⟨n :: parts, brackets, asserted⟩ := by
      unfold afterBracket
      dsimp only [opened]
      split
      · contradiction
      · split
        · exact absurd rfl (shape.1 _)
        · rfl
    rw [left] at closes
    exact opens.cons ((h.leads opened brackets asserted rfl).append closes)

/-- Square brackets that a caret negates. They are written unless they hold a word, or brackets of
their own that a choice needs. -/
theorem negatedBracket (h : Interior xs finished last) (own : b.finished = finished)
    (delimiter : b.delimiter = .bracket) (made : b.node last.reverse = .ok n)
    (written : (negate n).toExpression = '^' :: '[' :: xs.flatMap Symbol.write ++ [']']) :
    Block (.negation :: .startGroup :: (xs ++ [.endGroup])) [negate n] := by
  refine ⟨(h.tidy.brackets false).negation, ?_, fun parts brackets asserted => ?_⟩
  · rw [Node.concatExpression, written]
    simp [Symbol.write, Symbol.describe, Node.concatExpression]
  · let opened : Bracket := ⟨Token.ofSymbol .startGroup, .bracket, true, [], parts⟩
    have opens : Leads [.negation, .startGroup] ⟨parts, brackets, asserted⟩
        ⟨[], opened :: brackets, asserted⟩ := fun rest => rfl
    have made' : { opened with finished := finished }.node last.reverse = .ok n :=
      Bracket.node_eq_ok delimiter.symm own.symm made
    have square : { opened with finished := finished }.delimiter = .ofRound false := rfl
    have closes := leads_closer (s := ⟨last, { opened with finished := finished } :: brackets, asserted⟩)
      rfl square made'
    exact opens.append ((h.leads opened brackets asserted rfl).append closes)

/-- How the negation of several alternatives is written. -/
theorem written_of_several (h : Interior xs finished last) (several : finished ≠ [])
    (own : b.finished = finished) (delimiter : b.delimiter = .bracket)
    (made : b.node last.reverse = .ok n) :
    (negate n).toExpression = '^' :: '[' :: xs.flatMap Symbol.write ++ [']'] := by
  have square : b.delimiter = .ofRound false := delimiter
  obtain ⟨⟨as, rfl⟩, written⟩ := h.toExpression_choice several own square made
  have alone (scope : NegationScope) :
      (Node.negation scope (.choice (.ofRound false) as)).toExpression =
        '^' :: (Node.choice (.ofRound false) as).toExpression := if_pos rfl
  rw [negate, alone, written]
  rfl

/-- How the negation of a single alternative is written, unless it is a word or a choice. -/
theorem written_of_single (h : Interior xs [] last) (own : b.finished = [])
    (delimiter : b.delimiter = .bracket) (made : b.node last.reverse = .ok n)
    (word : ∀ t, last = [.literal t] → t.any isBlank = true)
    (choice : ∀ as, last ≠ [.choice .bracket as]) :
    (negate n).toExpression = '^' :: '[' :: xs.flatMap Symbol.write ++ [']'] := by
  have single := Bracket.eq_ofParts delimiter own made
  have alone (m : Node) (other : ∀ children, m ≠ .sequence children) (same : n = m) : last = [m] := by
    have parts := Node.eq_singleton_of_ofParts (single.symm.trans same) other
    simpa using congrArg List.reverse parts
  have bracketed : n.standsAlone (if n.toExpression.any isBlank then .phrase else .word) = false := by
    cases n with
    | literal t =>
      rw [Node.toExpression, any_isBlank_escapeLiteral, word t (alone _ (by simp) rfl)]
      rfl
    | choice delimiter as =>
      cases delimiter with
      | bracket => exact absurd (alone _ (by simp) rfl) (choice as)
      | _ => rfl
    | _ => rfl
  rw [negate, Node.toExpression, if_neg (ne_true_of_eq_false bracketed), single,
    Node.toExpression_ofParts, h.written]
  rfl

end Interior

end Reading

end StepMatch
