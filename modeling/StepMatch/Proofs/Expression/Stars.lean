import StepMatch.Proofs.Expression.Writing

/-!
# Stars among neighbours

A wildcard is written with a star, and so is literal text that is a star and nothing else. A star that stands
alone in a run of text is a wildcard, so such a literal is only made where a word is taken out of its text: by
a bar or a caret. It is then an alternative or what is negated, and never has neighbours of its own.
-/

namespace StepMatch

namespace Node

variable {n : Node} {ns : List Node} {t : Text}

/-- No literal star stands among neighbours anywhere in the tree. -/
def TellsStars (n : Node) : Prop := ∀ children, (sequence children).Within n → .literal ['*'] ∉ children

/-- The tree may have neighbours: it is no literal star, and has none among neighbours. -/
structure IsTold (n : Node) : Prop where
  own : n ≠ .literal ['*']
  inner : n.TellsStars

/-! ### Trees -/

theorem tellsStars_literal (t : Text) : (literal t).TellsStars := by
  rintro children ⟨⟩

theorem tellsStars_wildcard : wildcard.TellsStars := by
  rintro children ⟨⟩

theorem isTold_argument (t : Text) (position : Nat) : (argument t position).IsTold :=
  ⟨by simp, by rintro children ⟨⟩⟩

theorem isTold_assertion (t : Text) (position : Nat) : (assertion t position).IsTold :=
  ⟨by simp, by rintro children ⟨⟩⟩

theorem TellsStars.optional (h : n.TellsStars) : n.optional.TellsStars := by
  intro children within
  cases within with
  | optional inner => exact h children inner

theorem TellsStars.negation (h : n.TellsStars) (scope : NegationScope) :
    (negation scope n).TellsStars := by
  intro children within
  cases within with
  | negation inner => exact h children inner

theorem tellsStars_choice_iff {delimiter : Delimiter} :
    (choice delimiter ns).TellsStars ↔ ∀ n ∈ ns, n.TellsStars := by
  constructor
  · exact fun h n mem children within => h children (.choice mem within)
  · intro each children within
    cases within with
    | choice mem inner => exact each _ mem children inner

theorem tellsStars_sequence_iff : (sequence ns).TellsStars ↔ ∀ n ∈ ns, n.IsTold := by
  constructor
  · intro h n mem
    refine ⟨fun star => h ns .self (star ▸ mem), fun children within => ?_⟩
    exact h children (.sequence mem within)
  · intro each children within
    cases within with
    | self => exact fun mem => (each _ mem).own rfl
    | sequence mem inner => exact (each _ mem).inner children inner

theorem isTold_ofParts (each : ∀ n ∈ ns, n.IsTold) : (ofParts ns).IsTold := by
  rw [ofParts.eq_def]
  split
  · exact each _ List.mem_cons_self
  · exact ⟨by simp, tellsStars_sequence_iff.2 each⟩

/-! ### Trees as they are written -/

/-- A wildcard is what is written with a star, but for literal text. -/
theorem toExpression_eq_star_iff (formed : n.Formed) (own : n ≠ .literal ['*']) :
    n.toExpression = ['*'] ↔ n = .wildcard := by
  refine ⟨fun star => ?_, fun e => by rw [e, toExpression]⟩
  cases formed with
  | @sequence children two each =>
    obtain _ | ⟨a, _ | ⟨b, ns⟩⟩ := children
    · simp at two
    · simp at two
    · have first := List.length_pos_iff.2 (each a (by simp)).toExpression_ne_nil
      have second := List.length_pos_iff.2 (each b (by simp)).toExpression_ne_nil
      have length := congrArg List.length star
      simp only [toExpression, concatExpression, List.length_append, List.length_singleton] at length
      omega
  | @literal t =>
    rw [toExpression] at star
    exact absurd star (escapeLiteral_ne_star fun e => own (by rw [e]))
  | @choice delimiter alternatives two =>
    obtain _ | ⟨a, _ | ⟨b, ns⟩⟩ := alternatives
    · simp at two
    · simp at two
    · exact absurd star (toExpression_choice_ne_star delimiter a b ns)
  | negation =>
    rw [toExpression] at star
    split at star <;> simp at star
  | wildcard => rfl
  | optional | argument | assertion => simp [toExpression] at star

/-! ### Runs of text -/

theorem carveFrom_false_cons (c : Char) (t : Text) :
    carveFrom false (c :: t) = consLiteral c (carveFrom (isBlank c) t) := by simp [carveFrom]

/-- A literal star comes of text that goes on after ink. -/
theorem eq_of_star_mem_carveFrom {fresh : Bool} (h : .literal ['*'] ∈ carveFrom fresh t) :
    fresh = false ∧ t = ['*'] := by
  induction t generalizing fresh with
  | nil => simp [carveFrom] at h
  | cons c t ih =>
    rw [carveFrom] at h
    split at h
    · -- a wildcard is followed by a blank, so by no star
      rename_i lone
      obtain ⟨-, rfl⟩ := ih ((List.mem_cons.1 h).resolve_left (by simp))
      simp [show isBlank '*' = false from rfl] at lone
    · rename_i other
      have later : ∀ {ns}, carveFrom (isBlank c) t = ns → .literal ['*'] ∈ ns → ns = [.literal ['*']] := by
        rintro ns e mem
        obtain ⟨blank, rfl⟩ := ih (e ▸ mem)
        rw [← e, blank]
        rfl
      have filled := inner_carveFrom (isBlank c) t
      rw [consLiteral.eq_def] at h
      split at h
      · rename_i u ns e
        obtain same | mem := List.mem_cons.1 h
        · obtain rfl : u = [] := by simpa using (List.cons.inj (literal.inj same)).2.symm
          rw [e] at filled
          cases filled _ List.mem_cons_self with
          | literal ne => exact absurd rfl ne
        · have none := later e (List.mem_cons_of_mem _ mem)
          rw [(List.cons.inj none).2] at mem
          cases mem
      · rename_i ns lone
        obtain same | mem := List.mem_cons.1 h
        · obtain rfl : c = '*' := by simpa using same.symm
          cases t with
          | nil => exact ⟨by simpa using other, rfl⟩
          | cons d t =>
            rw [show isBlank '*' = false from rfl, carveFrom_false_cons, consLiteral.eq_def] at lone
            split at lone
            · exact (lone _ _ rfl).elim
            · exact (lone _ _ rfl).elim
        · exact (lone _ _ (later rfl mem)).elim

theorem isTold_carve (t : Text) : ∀ n ∈ carve t, n.IsTold := by
  have leaves := forall_carveFrom tellsStars_wildcard (fun t _ => tellsStars_literal t) true t
  refine fun n mem => ⟨?_, leaves n mem⟩
  rintro rfl
  cases (eq_of_star_mem_carveFrom mem).1

end Node

/-- What stands in front of the last word closes with a blank. -/
theorem ne_star_of_lastWord? {t head word : Text} (h : lastWord? t = some (head, word)) : head ≠ ['*'] := by
  rw [lastWord?.eq_def] at h
  split at h
  · cases h
  · cases h
    intro star
    have front : t.reverse.dropWhile isInk = ['*'] := by
      rw [← List.reverse_reverse (t.reverse.dropWhile isInk), star]
      rfl
    have ink := List.head?_dropWhile_not isInk t.reverse
    rw [front] at ink
    simp [show isInk '*' = true from rfl] at ink

namespace Reading

open Node (IsTold)

/-- All parts that are complete, and those that wait around open brackets, may have neighbours. -/
structure Tells (s : Reading) : Prop where
  parts : ∀ n ∈ s.parts, n.IsTold
  brackets : ∀ b ∈ s.brackets, (∀ n ∈ b.before, n.IsTold) ∧ ∀ ns ∈ b.finished, ∀ n ∈ ns, n.IsTold

variable {s s' : Reading} {t : Text} {b : Bracket} {outer : List Bracket} {n : Node}

theorem tells_start : start.Tells := ⟨by simp [start], by simp [start]⟩

theorem Tells.push (h : s.Tells) (own : n.IsTold) : (s.push n).Tells :=
  ⟨List.forall_mem_cons.2 ⟨own, h.parts⟩, h.brackets⟩

theorem Tells.pushText (h : s.Tells) (t : Text) : (s.pushText t).Tells := by
  refine ⟨fun n mem => ?_, h.brackets⟩
  obtain mem | mem := List.mem_append.1 mem
  · exact Node.isTold_carve t n (List.mem_reverse.1 mem)
  · exact h.parts n mem

theorem Tells.openBracket (h : s.Tells) (opener : Token) (delimiter : Delimiter) (negated : Bool) :
    (s.openBracket opener delimiter negated).Tells :=
  ⟨by simp [Reading.openBracket], List.forall_mem_cons.2 ⟨⟨h.parts, by simp⟩, h.brackets⟩⟩

theorem Tells.nextAlternative (h : s.Tells) (e : s.brackets = b :: outer) :
    (s.nextAlternative b outer).Tells := by
  have waits := h.brackets
  rw [e] at waits
  obtain ⟨⟨before, finished⟩, waits⟩ := List.forall_mem_cons.1 waits
  have parts : ∀ n ∈ s.parts.reverse, n.IsTold := fun n mem => h.parts n (List.mem_reverse.1 mem)
  exact ⟨by simp [Reading.nextAlternative], List.forall_mem_cons.2
    ⟨⟨before, List.forall_mem_cons.2 ⟨parts, finished⟩⟩, waits⟩⟩

theorem isTold_of_bracket_node {last : List Node} (parts : ∀ n ∈ last, n.IsTold)
    (finished : ∀ ns ∈ b.finished, ∀ n ∈ ns, n.IsTold) (made : b.node last = .ok n) : n.IsTold := by
  rw [Bracket.node.eq_def] at made
  have lone := Node.isTold_ofParts parts
  split at made
  · split at made
    · cases made
    · split at made <;> cases made
      · exact ⟨by simp, lone.inner.optional⟩
      · exact lone
  · simp only at made
    split at made <;> cases made
    refine ⟨by simp, Node.tellsStars_choice_iff.2 fun n mem => ?_⟩
    obtain ⟨ns, listed, rfl⟩ := List.mem_map.1 mem
    obtain rfl | listed := List.mem_cons.1 (List.mem_reverse.1 listed)
    · exact lone.inner
    · exact (Node.isTold_ofParts (finished ns listed)).inner

theorem Tells.closeBracket (h : s.Tells) {token : Token} (e : s.closeBracket token = .ok s') :
    s'.Tells := by
  obtain ⟨b, outer, n, brackets, -, made, rfl⟩ := closeBracket_eq_ok_iff.1 e
  have waits := h.brackets
  rw [brackets] at waits
  obtain ⟨⟨before, finished⟩, waits⟩ := List.forall_mem_cons.1 waits
  have own := isTold_of_bracket_node (fun n mem => h.parts n (List.mem_reverse.1 mem)) finished made
  have left : Tells { s with parts := b.before, brackets := outer } := ⟨before, waits⟩
  unfold afterBracket
  split
  · exact left.push ⟨by simp [negate], own.inner.negation _⟩
  · split
    · -- square brackets that only group leave their parts behind
      refine ⟨fun m mem => ?_, left.brackets⟩
      obtain mem | mem := List.mem_append.1 mem
      · exact Node.tellsStars_sequence_iff.1 own.inner m (List.mem_reverse.1 mem)
      · exact left.parts m mem
    · exact left.push own

theorem Tells.chooseWord (h : s.Tells) {bar : Token} (e : s.chooseWord bar t = .ok s') : s'.Tells := by
  rw [Reading.chooseWord.eq_def] at e
  split at e
  · cases e
  · rename_i word rest first
    have choose : ∀ alternatives before : List Node, (∀ n ∈ alternatives, n.TellsStars) →
        (∀ n ∈ before, n.IsTold) → Tells (Reading.pushText
          { s with parts := .choice .bare (alternatives ++ [.literal word]) :: before } rest) := by
      intro alternatives before each told
      have chosen : (Node.choice .bare (alternatives ++ [.literal word])).IsTold := by
        refine ⟨by simp, Node.tellsStars_choice_iff.2 fun n mem => ?_⟩
        obtain mem | mem := List.mem_append.1 mem
        · exact each n mem
        · exact List.mem_singleton.1 mem ▸ Node.tellsStars_literal word
      have left : Tells { s with parts := before } := ⟨told, h.brackets⟩
      exact (left.push chosen).pushText rest
    have word : ∀ left : Text, ∀ n ∈ [Node.literal left], n.TellsStars := fun left =>
      List.forall_mem_singleton.2 (Node.tellsStars_literal left)
    have told := h.parts
    split at e
    · rename_i alternatives before parts
      cases e
      rw [parts, List.forall_mem_cons] at told
      exact choose _ _ (Node.tellsStars_choice_iff.1 told.1.inner) told.2
    · rename_i l before parts
      rw [parts, List.forall_mem_cons] at told
      split at e
      · cases e
      · cases e
        exact choose _ _ (word _) told.2
      · rename_i head left ne last
        cases e
        refine choose _ _ (word _) (List.forall_mem_cons.2 ⟨⟨?_, Node.tellsStars_literal head⟩, told.2⟩)
        simpa using ne_star_of_lastWord? last
    · cases e

theorem Tells.negateWord (h : s.Tells) {caret : Token} (e : s.negateWord caret t = .ok s') :
    s'.Tells := by
  rw [Reading.negateWord.eq_def] at e
  split at e
  · cases e
  · rename_i word rest first
    cases e
    exact (h.push ⟨by simp, (Node.tellsStars_literal word).negation _⟩).pushText rest

theorem Tells.pushSlot (h : s.Tells) {opener : Token} (e : s.pushSlot opener t = .ok s') : s'.Tells := by
  rw [Reading.pushSlot.eq_def] at e
  simp only at e
  split at e
  · split at e
    · cases e
    · split at e <;> cases e
      have pushed := h.push (Node.isTold_assertion t.trim opener.start)
      exact ⟨pushed.parts, pushed.brackets⟩
  · split at e
    · cases e
    · split at e <;> cases e
      exact h.push (Node.isTold_argument t.trim opener.start)

/-- Every step of a reading keeps stars to be told, and so does a reading. -/
theorem Tells.run (h : s.Tells) {tokens : List Token} {parts : List Node}
    (e : s.run tokens = .ok parts) : ∀ n ∈ parts, n.IsTold := by
  fun_induction Reading.run s tokens with
  | case1 s outside =>
    cases e
    exact fun n mem => h.parts n (List.mem_reverse.1 mem)
  | case3 s token rest t symbol ih => exact ih (h.pushText t) e
  | case4 s token rest symbol ih | case5 s token rest symbol ih =>
    exact ih (h.openBracket _ _ _) e
  | case6 s token rest symbol ih | case7 s token rest symbol ih =>
    obtain ⟨s', closed, e⟩ := ok_of_bind e
    exact ih s' (h.closeBracket closed) e
  | case8 s token symbol b outer rest brackets ih => exact ih (h.nextAlternative brackets) e
  | case9 s token symbol t start stop rest outside ih =>
    obtain ⟨s', chosen, e⟩ := ok_of_bind e
    exact ih s' (h.chooseWord chosen) e
  | case11 s token symbol t start stop rest ih =>
    obtain ⟨s', negated, e⟩ := ok_of_bind e
    exact ih s' (h.negateWord negated) e
  | case12 s token symbol start stop rest ih => exact ih (h.openBracket _ _ _) e
  | case14 s token symbol outside t start stop start' stop' rest ih
  | case18 s token symbol outside t start stop start' stop' rest ih =>
    obtain ⟨s', pushed, e⟩ := ok_of_bind e
    exact ih s' (h.pushSlot pushed) e
  | _ => cases e

end Reading

/-- In the tree of an expression no literal star has neighbours. -/
theorem Node.tellsStars_of_parse {expression : Text} {n : Node} (h : parse expression = .ok n) :
    n.TellsStars := by
  obtain ⟨tokens, -, h⟩ := ok_of_bind h
  obtain ⟨parts, run, h⟩ := ok_of_bind h
  split at h <;> cases h
  exact (isTold_ofParts (Reading.tells_start.run run)).inner

end StepMatch
