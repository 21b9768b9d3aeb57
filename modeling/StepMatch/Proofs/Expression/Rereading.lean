import StepMatch.Proofs.Expression.Blocks
import StepMatch.Proofs.Expression.Settled

/-!
# Reading settled trees again

What a settled tree is written as gives the tree back, up to the places of its slots.

The literals and stars at the start of a row of parts are one run of text, so the symbols of a row are
found from the right, with that run kept apart from the symbols behind it. A part in brackets, or a
slot, has symbols of its own, wherever it stands.
-/

namespace StepMatch

namespace Reading

open Node (lead isAssertion touches)
open StepMatch.Symbol (opener closer bars StartsWithText EndsInText Tidy)

/-- The reading with more parts. -/
def extend (s : Reading) (ns : List Node) : Reading :=
  ⟨ns.reverse ++ s.parts, s.brackets, s.asserted || ns.any isAssertion⟩

/-- The parts may stand where the reading has come to. -/
structure Admits (s : Reading) (ns : List Node) : Prop where
  fits : ∀ n ∈ ns, FitsIn s.brackets n
  once : s.asserted.toNat + ns.countP isAssertion ≤ 1

variable {s s' s'' : Reading} {n : Node} {ns : List Node} {xs later : List Symbol} {t u w : Text}

theorem extend_cons (s : Reading) (n : Node) (ns : List Node) :
    s.extend (n :: ns) = (s.extend [n]).extend ns := by
  simp [extend, Bool.or_assoc]

theorem Admits.head (h : s.Admits (n :: ns)) : s.Admits [n] where
  fits := List.forall_mem_singleton.2 (h.fits n List.mem_cons_self)
  once := by
    have once := h.once
    rw [List.countP_cons] at once
    rw [List.countP_singleton]
    omega

theorem Admits.tail (h : s.Admits (n :: ns)) : (s.extend [n]).Admits ns where
  fits m hm := h.fits m (List.mem_cons_of_mem n hm)
  once := by
    have once := h.once
    rw [List.countP_cons] at once
    have whole : (s.extend [n]).asserted.toNat ≤ s.asserted.toNat + n.isAssertion.toNat := by
      simp only [extend, List.any_cons, List.any_nil, Bool.or_false]
      cases s.asserted <;> cases n.isAssertion <;> decide
    cases own : n.isAssertion <;> simp only [own, Bool.toNat_true, Bool.toNat_false, if_true, if_false,
      Bool.false_eq_true] at once whole <;> omega

/-- Symbols that write one part, without text at either end, and that are read as this part. -/
structure Chunk (symbols : List Symbol) (n : Node) : Prop where
  tidy : Tidy symbols
  starts : ¬ StartsWithText symbols
  ends : ¬ EndsInText symbols
  written : symbols.flatMap Symbol.write = n.toExpression
  leads : ∀ s : Reading, s.Admits [n] → Leads symbols s (s.extend [n])

/-- Symbols that write a row of parts but for the text at its start. After that text, or after a literal
that it goes on, they are read as the parts. -/
structure Row (ns : List Node) (later : List Symbol) : Prop where
  tidy : Tidy later
  starts : ¬ StartsWithText later
  written : escapeLiteral (lead ns) ++ later.flatMap Symbol.write = Node.concatExpression ns
  leads : ∀ s : Reading, s.Admits ns → Leads later (s.pushText (lead ns)) (s.extend ns)
  joins : ∀ t, t ≠ [] → ['*'] ∉ Text.words t → ns.head?.all (fun m => !(Node.literal t).touches m) →
    ∀ s : Reading, s.Admits (.literal t :: ns) →
      Leads later (s.pushText (t ++ lead ns)) (s.extend (.literal t :: ns))

theorem pushText_of_carve (carved : Node.carve t = ns) (plain : ∀ n ∈ ns, n.isAssertion = false) :
    s.pushText t = s.extend ns := by
  have none : ns.any isAssertion = false := by simpa using plain
  rw [pushText, carved, extend, none, Bool.or_false]

theorem pushText_literal (ne : t ≠ []) (star : ['*'] ∉ Text.words t) :
    s.pushText t = s.extend [.literal t] :=
  pushText_of_carve (Node.carve_of_ne_nil ne star) (by simp [isAssertion])

theorem pushText_nil : s.pushText [] = s := rfl

theorem leads_ofText (t : Text) : Leads (Symbol.ofText t) s (s.pushText t) := by
  intro rest
  rw [Symbol.ofText]
  split
  · rename_i none
    rw [none]
    rfl
  · simp [Token.ofSymbol, run]

theorem tidy_ofText (tidy : Tidy later) (starts : ¬ StartsWithText later) (t : Text) :
    Tidy (Symbol.ofText t ++ later) := by
  rw [Symbol.ofText]
  split
  · exact tidy
  · rename_i ne
    exact (Tidy.singleton (by simpa using ne) (by simp) (by simp)).append tidy fun _ => starts

theorem not_startsWithText_append (ne : xs ≠ []) (starts : ¬ StartsWithText xs) :
    ¬ StartsWithText (xs ++ later) := by
  rintro ⟨t, e⟩
  rw [List.head?_append_of_ne_nil _ ne] at e
  exact starts ⟨t, e⟩

namespace Row

theorem nil : Row [] [] where
  tidy := .nil
  starts := fun ⟨_, e⟩ => by cases e
  written := rfl
  leads s _ := by
    have same : s.extend [] = s := by simp [extend]
    rw [same]
    exact .nil
  joins t ne star _ s _ := by
    have none : lead [] = [] := rfl
    rw [none, List.append_nil, pushText_literal ne star]
    exact .nil

/-- Where no text opens the row, a literal in front of it is a part of its own. -/
theorem joins_of_lead (none : lead ns = []) (leads : ∀ s : Reading, s.Admits ns →
      Leads later (s.pushText (lead ns)) (s.extend ns)) (ne : t ≠ []) (star : ['*'] ∉ Text.words t)
    (admits : s.Admits (.literal t :: ns)) :
    Leads later (s.pushText (t ++ lead ns)) (s.extend (.literal t :: ns)) := by
  have own := leads _ admits.tail
  rw [none, pushText_nil] at own
  rw [none, List.append_nil, pushText_literal ne star, extend_cons s _ ns]
  exact own

/-- A part in brackets or a slot in front of a row. -/
theorem chunk (chunk : Chunk xs n) (ne : xs ≠ []) (row : Row ns later) (none : lead (n :: ns) = []) :
    Row (n :: ns) (xs ++ (Symbol.ofText (lead ns) ++ later)) := by
  have leads (s : Reading) (admits : s.Admits (n :: ns)) :
      Leads (xs ++ (Symbol.ofText (lead ns) ++ later)) (s.pushText (lead (n :: ns)))
        (s.extend (n :: ns)) := by
    rw [none, pushText_nil, extend_cons]
    have own := chunk.leads s admits.head
    exact own.append ((leads_ofText _).append (row.leads _ admits.tail))
  refine ⟨?_, not_startsWithText_append ne chunk.starts, ?_, leads, ?_⟩
  · exact chunk.tidy.append (tidy_ofText row.tidy row.starts _) fun e => absurd e chunk.ends
  · rw [none, Node.concatExpression, ← row.written, ← chunk.written, List.flatMap_append,
      List.flatMap_append, Symbol.flatMap_write_ofText]
    rfl
  · intro t ne star _ s admits
    exact joins_of_lead none leads ne star admits

/-- Literal text in front of a row. -/
theorem literal (ne : t ≠ []) (star : ['*'] ∉ Text.words t)
    (apart : ns.head?.all (fun m => !(Node.literal t).touches m) = true) (row : Row ns later) :
    Row (.literal t :: ns) later where
  tidy := row.tidy
  starts := row.starts
  written := by
    rw [lead, escapeLiteral_append, List.append_assoc, row.written]
    rfl
  leads s admits := row.joins t ne star apart s admits
  joins u _ _ touching := by simp [touches, Node.isLiteral] at touching

/-- A star in front of a row that does not open with a word. -/
theorem wildcard (edge : (lead ns).head?.all isBlank = true) (row : Row ns later) :
    Row (.wildcard :: ns) later := by
  have carved := Node.carve_star edge
  have pushed (s : Reading) : s.pushText (lead (.wildcard :: ns)) =
      (s.extend [.wildcard]).pushText (lead ns) := by
    simp [lead, pushText, carved, extend, isAssertion]
  refine ⟨row.tidy, row.starts, ?_, fun s admits => ?_, fun t ne star apart s admits => ?_⟩
  · rw [Node.concatExpression, ← row.written]
    rfl
  · rw [pushed, extend_cons s _ ns]
    exact row.leads _ admits.tail
  · have closes : Text.endsBlank t = true := by
      simpa [touches, Node.isLiteral, Node.closesWord, Node.opensWord] using apart
    have cut : Node.carve (t ++ lead (.wildcard :: ns)) = [.literal t] ++ Node.carve (lead (.wildcard :: ns)) := by
      rw [← Node.carve_of_ne_nil ne star]
      exact Node.carveFrom_append ne closes carved true
    have pushed' : s.pushText (t ++ lead (.wildcard :: ns)) =
        (s.extend [.literal t]).pushText (lead (.wildcard :: ns)) := by
      simp [pushText, cut, extend, isAssertion]
    rw [pushed', pushed, extend_cons s _ (.wildcard :: ns), extend_cons _ .wildcard ns]
    exact row.leads _ admits.tail.tail

/-- A negated word in front of a row that does not open with a word. -/
theorem negatedWord (ne : w ≠ []) (ink : w.any isBlank = false)
    (edge : (lead ns).head?.all isBlank = true) (row : Row ns later) :
    Row (.negation .word (.literal w) :: ns) (.negation :: .text (w ++ lead ns) :: later) := by
  have first := firstWord?_append ne ink edge
  have text : Tidy (.text (w ++ lead ns) :: later) :=
    (Tidy.singleton (by simp [ne]) (by simp) (by simp)).append row.tidy fun _ => row.starts
  have leads (s : Reading) (admits : s.Admits (.negation .word (.literal w) :: ns)) :
      Leads (.negation :: .text (w ++ lead ns) :: later) (s.pushText [])
        (s.extend (.negation .word (.literal w) :: ns)) := by
    rw [extend_cons s _ ns, pushText_nil]
    have own : Leads [.negation, .text (w ++ lead ns)] s
        ((s.extend [.negation .word (.literal w)]).pushText (lead ns)) := by
      intro rest
      simp [Token.ofSymbol, run, negateWord, first, Except.bind, push, extend, isAssertion]
    exact own.append (row.leads _ admits.tail)
  refine ⟨text.negation, ?_, ?_, leads, fun t ne star _ s admits => ?_⟩
  · rintro ⟨_, e⟩
    cases e
  · rw [Node.concatExpression, ← row.written]
    simp [lead, Symbol.write, Symbol.describe, Node.toExpression, Node.standsAlone, escapeLiteral_append]
    rfl
  · exact joins_of_lead rfl leads ne star admits

/-- Words with bars between them go on a choice without brackets. -/
theorem leads_bars {alternatives before : List Node} {more : List Text} (outside : s.brackets = [])
    (chosen : s.parts = .choice .bare alternatives :: before)
    (words : ∀ u ∈ w :: more, u ≠ [] ∧ List.any u isBlank = false) (edge : t.head?.all isBlank = true) :
    Leads (bars w more t) s (pushText
      { s with parts := .choice .bare (alternatives ++ (w :: more).map .literal) :: before } t) := by
  obtain ⟨parts, brackets, asserted⟩ := s
  obtain rfl : brackets = [] := outside
  obtain rfl : parts = .choice .bare alternatives :: before := chosen
  induction more generalizing w alternatives with
  | nil =>
    obtain ⟨ne, ink⟩ := words w List.mem_cons_self
    have first := firstWord?_append ne ink edge
    intro rest
    simp [bars, Token.ofSymbol, run, chooseWord, first, Except.bind]
  | cons next more ih =>
    obtain ⟨ne, ink⟩ := words w List.mem_cons_self
    have first := firstWord?_append (t := []) ne ink rfl
    rw [List.append_nil] at first
    have own : Leads [.choiceSeparator, .text w] ⟨.choice .bare alternatives :: before, [], asserted⟩
        ⟨.choice .bare (alternatives ++ [.literal w]) :: before, [], asserted⟩ := by
      intro rest
      simp [Token.ofSymbol, run, chooseWord, first, Except.bind, pushText, Node.carve, Node.carveFrom]
    have others : Leads (bars next more t) ⟨.choice .bare (alternatives ++ [.literal w]) :: before, [],
        asserted⟩ _ := ih fun u hu => words u (List.mem_cons_of_mem w hu)
    rw [List.append_assoc] at others
    exact own.append others

/-- A bar takes the last word in front of it, whether this is a part of its own or the end of a
literal. -/
theorem leads_choice {more : List Text} {parts : List Node} {asserted : Bool} {l next : Text}
    (joint : l.getLast?.all isBlank = true)
    (words : ∀ u ∈ w :: next :: more, u ≠ [] ∧ List.any u isBlank = false)
    (edge : t.head?.all isBlank = true) :
    Leads (bars next more t) ⟨.literal (l ++ w) :: parts, [], asserted⟩ (pushText
      ⟨.choice .bare ((w :: next :: more).map .literal) :: ((Node.ofText l).reverse ++ parts), [], asserted⟩
      t) := by
  have chosen : Leads (bars next more t)
      ⟨.choice .bare [.literal w] :: ((Node.ofText l).reverse ++ parts), [], asserted⟩ _ :=
    leads_bars rfl rfl (fun u hu => words u (List.mem_cons_of_mem w hu)) edge
  obtain ⟨ne, ink⟩ := words w List.mem_cons_self
  have last := lastWord?_append ne ink joint
  have same (bar : Token) (u : Text) : chooseWord ⟨.literal (l ++ w) :: parts, [], asserted⟩ bar u =
      chooseWord ⟨.choice .bare [.literal w] :: ((Node.ofText l).reverse ++ parts), [], asserted⟩ bar u := by
    rw [chooseWord.eq_def, chooseWord.eq_def]
    cases firstWord? u with
    | none => rfl
    | some cut =>
      simp only [last]
      cases l <;> rfl
  obtain ⟨u, rest, e⟩ : ∃ u rest, bars next more t = .choiceSeparator :: .text u :: rest := by
    cases more <;> exact ⟨_, _, rfl⟩
  intro later
  have own := chosen later
  rw [e] at own ⊢
  simpa [Token.ofSymbol, run, same] using own

theorem tidy_bars {more : List Text} (words : ∀ u ∈ w :: more, u ≠ []) (tidy : Tidy later)
    (starts : ¬ StartsWithText later) (t : Text) : Tidy (bars w more t ++ later) := by
  have own (u : Text) (ne : u ≠ []) {rest : List Symbol} (tidy : Tidy rest)
      (starts : ¬ StartsWithText rest) : Tidy (.choiceSeparator :: .text u :: rest) := by
    have text : Tidy (.text u :: rest) :=
      (Tidy.singleton (by simpa using ne) (by simp) (by simp)).append tidy fun _ => starts
    exact (Tidy.singleton (by simp) (by simp) (by simp)).append text fun ⟨_, e⟩ => by cases e
  induction more generalizing w with
  | nil => exact own _ (List.append_ne_nil_of_left_ne_nil (words w List.mem_cons_self) t) tidy starts
  | cons next more ih =>
    have others := ih fun u hu => words u (List.mem_cons_of_mem w hu)
    refine own w (words w List.mem_cons_self) others (not_startsWithText_append ?_ ?_)
    · cases more <;> exact List.cons_ne_nil _ _
    · rintro ⟨u, e⟩
      cases more <;> cases e

/-- A choice without brackets in front of a row that does not open with a word. -/
theorem bare {more : List Text} {next : Text}
    (words : ∀ u ∈ w :: next :: more, u ≠ [] ∧ List.any u isBlank = false) (star : w ≠ ['*'])
    (edge : (lead ns).head?.all isBlank = true) (row : Row ns later) :
    Row (.choice .bare ((w :: next :: more).map .literal) :: ns) (bars next more (lead ns) ++ later) := by
  obtain ⟨ne, ink⟩ := words w List.mem_cons_self
  have star' : ['*'] ∉ Text.words w := by simpa [Text.words_of_ink ne ink] using star.symm
  have nonempty : bars next more (lead ns) ≠ [] := by cases more <;> exact List.cons_ne_nil _ _
  have outside {s : Reading} (admits : s.Admits (.choice .bare ((w :: next :: more).map .literal) :: ns)) :
      s.brackets = [] := by
    have fits := admits.fits _ List.mem_cons_self
    cases brackets : s.brackets with
    | nil => rfl
    | cons b outer =>
      rw [brackets] at fits
      cases fits
      contradiction
  -- the words after the first one, wherever that comes from
  have leads (s : Reading) (l : Text) (joint : l.getLast?.all isBlank = true)
      (admits : s.Admits (.choice .bare ((w :: next :: more).map .literal) :: ns))
      (carved : Node.carve (l ++ w) = [.literal (l ++ w)]) :
      Leads (bars next more (lead ns) ++ later) (s.pushText (l ++ w))
        ((s.extend (Node.ofText l)).extend (.choice .bare ((w :: next :: more).map .literal) :: ns)) := by
    obtain ⟨parts, brackets, asserted⟩ := s
    obtain rfl : brackets = [] := outside admits
    have pushed : pushText ⟨parts, [], asserted⟩ (l ++ w) = ⟨.literal (l ++ w) :: parts, [], asserted⟩ := by
      rw [pushText, carved]
      rfl
    have slotFree : (Node.ofText l).any isAssertion = false := by
      rw [Node.ofText]
      split <;> rfl
    have admits' : Admits
        ⟨.choice .bare ((w :: next :: more).map .literal) :: ((Node.ofText l).reverse ++ parts), [],
          asserted⟩ ns :=
      ⟨admits.tail.fits, by simpa [extend, isAssertion] using admits.tail.once⟩
    have whole := (leads_choice joint words edge).append (row.leads _ admits')
    rw [pushed]
    simpa [extend, slotFree, isAssertion] using whole
  refine ⟨?_, ?_, ?_, fun s admits => ?_, fun t ne star apart s admits => ?_⟩
  · exact tidy_bars (fun u hu => (words u (List.mem_cons_of_mem w hu)).1) row.tidy row.starts _
  · refine not_startsWithText_append nonempty ?_
    rintro ⟨u, e⟩
    cases more <;> cases e
  · have words' : Node.choiceExpression ((w :: next :: more).map .literal) =
        escapeLiteral w ++ (next :: more).flatMap fun u => '|' :: escapeLiteral u := by
      rw [List.map_cons, Node.choiceExpression_cons]
      simp [Node.toExpression, List.flatMap_map]
    have own : (Node.choice .bare ((w :: next :: more).map .literal)).toExpression =
        escapeLiteral w ++ (next :: more).flatMap fun u => '|' :: escapeLiteral u := by
      rw [Node.toExpression, words']
      simp [Delimiter.opening, Delimiter.closing]
    rw [List.flatMap_append, Symbol.flatMap_write_bars, Node.concatExpression, ← row.written, own]
    simp [lead]
  · have own := leads s [] rfl admits (Node.carve_of_ne_nil ne star')
    have none : s.extend (Node.ofText []) = s := by simp [extend, Node.ofText]
    rw [none] at own
    exact own
  · have closes : Text.endsBlank t = true := by
      simpa [touches, Node.isLiteral, Node.closesWord, Node.opensWord] using apart
    have star'' : ['*'] ∉ Text.words (t ++ w) := by
      rw [Text.words_append_of_endsBlank closes, List.mem_append, not_or]
      exact ⟨star, star'⟩
    have joint : t.getLast?.all isBlank = true := by
      obtain ⟨c, last⟩ := Option.isSome_iff_exists.1 (List.getLast?_isSome.2 ne)
      simpa [Text.endsBlank, last] using closes
    have admits' : s.Admits (.choice .bare ((w :: next :: more).map .literal) :: ns) :=
      ⟨admits.tail.fits, by simpa [extend, isAssertion] using admits.tail.once⟩
    have own := leads s t joint admits'
      (Node.carve_of_ne_nil (List.append_ne_nil_of_left_ne_nil ne w) star'')
    rw [Node.ofText, if_neg ne] at own
    rwa [extend_cons s _ (_ :: ns)]

end Row

/-- A row of settled parts that keep apart can be written. -/
theorem exists_row (outer : ∀ n ∈ ns, n.Outer) (settled : ∀ n ∈ ns, n.isSettled = true)
    (apart : Node.keepApart ns = true)
    (chunks : ∀ n ∈ ns, n.isLiteral = false → n.closesWord = false → ∃ xs, xs ≠ [] ∧ Chunk xs n) :
    ∃ later, Row ns later := by
  induction ns with
  | nil => exact ⟨[], .nil⟩
  | cons n ns ih =>
    obtain ⟨own, outer⟩ := List.forall_mem_cons.1 outer
    obtain ⟨settled', settled⟩ := List.forall_mem_cons.1 settled
    obtain ⟨chunk, chunks⟩ := List.forall_mem_cons.1 chunks
    simp only [Node.keepApart, Bool.and_eq_true] at apart
    obtain ⟨later, row⟩ := ih outer settled apart.2 chunks
    -- what stands behind ink at the end of a part does not open with a word
    have edge (closes : n.closesWord = true) : (lead ns).head?.all isBlank = true := by
      refine Node.lead_edge outer ?_
      cases head : ns.head? with
      | none => rfl
      | some m =>
        have touching := apart.1.2
        rw [head] at touching
        simp only [Option.all_some, touches, closes, Bool.not_eq_true', Bool.or_eq_false_iff,
          Bool.true_and] at touching
        simp [touching.2]
    have bracketed (literal : n.isLiteral = false) (closed : n.closesWord = false)
        (none : lead (n :: ns) = []) : ∃ later, Row (n :: ns) later := by
      obtain ⟨xs, ne, written⟩ := chunk literal closed
      exact ⟨_, .chunk written ne row none⟩
    cases n with
    | literal t =>
      have ne : t ≠ [] := by
        cases own with
        | inner inner =>
          cases inner
          assumption
      exact ⟨later, .literal ne (by simpa [Node.isSettled] using settled') apart.1.2 row⟩
    | wildcard => exact ⟨later, .wildcard (edge rfl) row⟩
    | choice delimiter alternatives =>
      cases delimiter with
      | bare =>
        obtain ⟨words, rfl, two, ink⟩ := own.exists_words
        obtain _ | ⟨w, _ | ⟨next, more⟩⟩ := words
        · simp at two
        · simp at two
        · have star : w ≠ ['*'] := by simpa [Node.isSettled, Node.startsWithStar] using settled'
          exact ⟨_, .bare ink star (edge rfl) row⟩
      | _ => exact bracketed rfl rfl rfl
    | negation scope child =>
      by_cases word : scope = .word ∧ ∃ w, child = .literal w
      · obtain ⟨rfl, w, rfl⟩ := word
        cases own with
        | inner inner =>
          obtain _ | _ | _ | _ | ⟨scope_iff, inner⟩ := inner
          have ink : w.any isBlank = false := by
            simpa [Node.toExpression, any_isBlank_escapeLiteral] using scope_iff
          have ne : w ≠ [] := by
            cases inner
            assumption
          exact ⟨_, .negatedWord ne ink (edge rfl) row⟩
      · refine bracketed rfl ?_ rfl
        cases scope with
        | phrase => rfl
        | word =>
          cases child with
          | literal w => exact absurd ⟨rfl, w, rfl⟩ word
          | _ => rfl
    | sequence | optional | argument | assertion => exact bracketed rfl rfl rfl

/-- A row of parts that may stand in brackets can be written and read anywhere. -/
theorem Row.block (row : Row ns later) (inner : ∀ n ∈ ns, n.Inner) :
    Block (Symbol.ofText (lead ns) ++ later) ns where
  tidy := tidy_ofText row.tidy row.starts _
  written := by rw [List.flatMap_append, Symbol.flatMap_write_ofText, row.written]
  leads parts brackets asserted := by
    have none : ns.countP isAssertion = 0 :=
      List.countP_eq_zero.2 fun n hn => by simp [(inner n hn).isAssertion]
    have none' : ns.any isAssertion = false := by simpa using fun n hn => (inner n hn).isAssertion
    have admits : Admits ⟨parts, brackets, asserted⟩ ns := by
      refine ⟨fun n hn => fitsIn_of_inner (inner n hn) _, ?_⟩
      rw [none]
      exact asserted.toNat_le
    have whole := (leads_ofText (lead ns)).append (row.leads _ admits)
    simpa [extend, none'] using whole

theorem Chunk.of_block (block : Block xs [n]) (inner : n.Inner) (starts : ¬ StartsWithText xs)
    (ends : ¬ EndsInText xs) : Chunk xs n where
  tidy := block.tidy
  starts := starts
  ends := ends
  written := by rw [block.written, Node.concatExpression, Node.concatExpression, List.append_nil]
  leads s _ := by
    have own := block.leads s.parts s.brackets s.asserted
    simpa [extend, inner.isAssertion] using own

/-! ## Brackets and slots -/

theorem Block.interior (block : Block xs ns) : Interior xs [] ns.reverse := by
  have whole := Interior.nil.append block fun ⟨_, e⟩ => by cases e
  simpa using whole

/-- Alternatives with bars between them. -/
theorem exists_interior (as : List Node) (a : Node) (blocks : ∀ m ∈ as ++ [a], ∃ ys, Block ys m.parts) :
    ∃ xs, Interior xs (as.map Node.parts).reverse a.parts.reverse := by
  induction as using List.reverseRecOn generalizing a with
  | nil =>
    obtain ⟨ys, block⟩ := blocks a (by simp)
    exact ⟨ys, block.interior⟩
  | append_singleton as b ih =>
    obtain ⟨xs, interior⟩ := ih b fun m hm => blocks m (List.mem_append_left _ hm)
    obtain ⟨ys, block⟩ := blocks a (by simp)
    have whole := interior.bar.append block fun ⟨_, e⟩ => by simp at e
    exact ⟨_, by simpa using whole⟩

/-- Several trees in brackets are the alternatives of a choice. -/
theorem node_alternatives {b : Bracket} {as : List Node} {a : Node}
    (finished : b.finished = (as.map Node.parts).reverse) (several : as ≠ [])
    (inner : ∀ m ∈ as ++ [a], m.Inner) :
    b.node a.parts = .ok (.choice b.delimiter (as ++ [a])) := by
  have whole : (a.parts :: b.finished).reverse = (as ++ [a]).map Node.parts := by simp [finished]
  have full : ¬ ((as ++ [a]).map Node.parts).any List.isEmpty = true := by
    simp only [List.any_map, List.any_eq_true, Function.comp_apply, List.isEmpty_iff, not_exists, not_and]
    exact fun m hm => (inner m hm).formed.parts_ne_nil
  have same : ((as ++ [a]).map Node.parts).map Node.ofParts = as ++ [a] := by
    rw [List.map_map]
    exact (List.map_congr_left fun m hm => (inner m hm).formed.ofParts_parts).trans (List.map_id _)
  rw [Bracket.node.eq_def]
  split
  · rename_i none
    rw [none] at finished
    simp [several] at finished
  · dsimp only
    rw [whole, if_neg full, same]

/-- A bracket with complete alternatives, last one first. -/
def bracketAround (round : Bool) (finished : List (List Node)) : Bracket :=
  ⟨Token.ofSymbol (opener round), .ofRound round, false, finished, []⟩

/-- Symbols in brackets have no text at either end. -/
theorem not_text_brackets (round : Bool) (xs : List Symbol) :
    ¬ StartsWithText (opener round :: (xs ++ [closer round])) ∧
      ¬ EndsInText (opener round :: (xs ++ [closer round])) := by
  constructor
  · rintro ⟨t, e⟩
    cases round <;> cases e
  · rintro ⟨t, e⟩
    rw [← List.cons_append, List.getLast?_append_of_ne_nil _ (List.cons_ne_nil _ _)] at e
    cases round <;> cases e

/-- What can be written can be written in parentheses. -/
theorem exists_chunk_optional (block : Block xs n.parts) (inner : n.Inner) :
    ∃ ys, ys ≠ [] ∧ Chunk ys (.optional n) := by
  have made : (bracketAround true []).node n.parts.reverse.reverse = .ok (.optional n) := by
    rw [List.reverse_reverse, Bracket.node.eq_def]
    simp [bracketAround, Delimiter.ofRound, inner.formed.parts_ne_nil, inner.formed.ofParts_parts]
  have written : Block (opener true :: (xs ++ [closer true])) [.optional n] :=
    block.interior.bracket rfl rfl made (.inl rfl)
  obtain ⟨starts, ends⟩ := not_text_brackets true xs
  exact ⟨_, List.cons_ne_nil _ _, .of_block written (.optional inner) starts ends⟩

/-- Alternatives that can be written can be written in brackets with bars between them. -/
theorem exists_chunk_choice {delimiter : Delimiter} {alternatives : List Node}
    (bracketed : delimiter ≠ .bare) (two : 2 ≤ alternatives.length)
    (inner : ∀ m ∈ alternatives, m.Inner) (blocks : ∀ m ∈ alternatives, ∃ ys, Block ys m.parts) :
    ∃ ys, ys ≠ [] ∧ Chunk ys (.choice delimiter alternatives) := by
  obtain ⟨round, rfl⟩ : ∃ round, delimiter = .ofRound round := by
    cases delimiter with
    | bare => exact absurd rfl bracketed
    | parenthesis => exact ⟨true, rfl⟩
    | bracket => exact ⟨false, rfl⟩
  obtain rfl | ⟨as, a, rfl⟩ := List.eq_nil_or_concat' alternatives
  · simp at two
  have several : as ≠ [] := by
    rintro rfl
    simp at two
  obtain ⟨xs, interior⟩ := exists_interior as a blocks
  have made : (bracketAround round (as.map Node.parts).reverse).node a.parts.reverse.reverse =
      .ok (.choice (.ofRound round) (as ++ [a])) := by
    rw [List.reverse_reverse]
    exact node_alternatives rfl several inner
  have written : Block (opener round :: (xs ++ [closer round])) [.choice (.ofRound round) (as ++ [a])] :=
    interior.bracket rfl rfl made (.inr (by simpa [bracketAround] using several))
  obtain ⟨starts, ends⟩ := not_text_brackets round xs
  exact ⟨_, List.cons_ne_nil _ _, .of_block written (.choice bracketed two inner) starts ends⟩

/-- The negation of something else than a word is written with square brackets. -/
theorem exists_chunk_negation {scope : NegationScope}
    (inner : (Node.negation scope n).Inner) (single : ∀ w, n ≠ .literal w ∨ scope = .phrase)
    (block : ∃ xs, Block xs n.parts)
    (alternatives : ∀ as, n = .choice .bracket as → ∀ m ∈ as, ∃ ys, Block ys m.parts) :
    ∃ ys, ys ≠ [] ∧ Chunk ys (.negation scope n) := by
  obtain _ | _ | _ | _ | ⟨scope_iff, inner'⟩ := inner
  have negated : negate n = .negation scope n := by
    rw [negate]
    cases scope with
    | phrase => rw [if_pos (scope_iff.1 rfl)]
    | word => rw [if_neg fun blank => by cases scope_iff.2 blank]
  have found : ∃ xs, Block (.negation :: .startGroup :: (xs ++ [.endGroup])) [negate n] := by
    by_cases choice : ∃ as, n = .choice .bracket as
    · obtain ⟨as, rfl⟩ := choice
      cases inner' with
      | choice bracketed two inner =>
        obtain rfl | ⟨as, a, rfl⟩ := List.eq_nil_or_concat' as
        · simp at two
        have several : as ≠ [] := by
          rintro rfl
          simp at two
        obtain ⟨xs, interior⟩ := exists_interior as a (alternatives _ rfl)
        have made : (bracketAround false (as.map Node.parts).reverse).node a.parts.reverse.reverse =
            .ok (.choice .bracket (as ++ [a])) := by
          rw [List.reverse_reverse]
          exact node_alternatives rfl several inner
        have several' : (as.map Node.parts).reverse ≠ [] := by simpa using several
        exact ⟨xs, interior.negatedBracket rfl rfl made
          (interior.written_of_several several' rfl rfl made)⟩
    · obtain ⟨xs, block⟩ := block
      have made : (bracketAround false []).node n.parts.reverse.reverse = .ok n := by
        rw [List.reverse_reverse, Bracket.node.eq_def]
        simp [bracketAround, Delimiter.ofRound, inner'.formed.parts_ne_nil, inner'.formed.ofParts_parts]
      refine ⟨xs, block.interior.negatedBracket rfl rfl made
        (block.interior.written_of_single rfl rfl made (fun t e => ?_) fun as e => ?_)⟩
      · have own : n = .literal t := by
          rw [← inner'.formed.ofParts_parts, ← List.reverse_reverse n.parts, e]
          rfl
        have phrase := (single t).resolve_left (not_not_intro own)
        simpa [own, Node.toExpression, any_isBlank_escapeLiteral] using scope_iff.1 phrase
      · refine choice ⟨as, ?_⟩
        rw [← inner'.formed.ofParts_parts, ← List.reverse_reverse n.parts, e]
        rfl
  obtain ⟨xs, written⟩ := found
  rw [negated] at written
  refine ⟨_, List.cons_ne_nil _ _, .of_block written (.negation scope_iff inner') ?_ ?_⟩
  · rintro ⟨t, e⟩
    cases e
  · rintro ⟨t, e⟩
    rw [← List.cons_append, ← List.cons_append, List.getLast?_append_of_ne_nil _ (List.cons_ne_nil _ _)] at e
    cases e

theorem exists_block (inner : n.Inner) (settled : n.isSettled = true)
    (chunks : ∀ m ∈ n.parts, m.isLiteral = false → m.closesWord = false → ∃ xs, xs ≠ [] ∧ Chunk xs m) :
    ∃ ys, Block ys n.parts := by
  have each : ∀ m ∈ n.parts, m.Inner := fun m hm => inner.of_mem_parts hm
  obtain ⟨settled', apart⟩ := Node.settled_parts settled
  obtain ⟨later, row⟩ := exists_row (fun m hm => .inner (each m hm)) settled' apart chunks
  exact ⟨_, row.block each⟩

/-- What stands inside a settled tree can be written: the parts that are no text, with symbols of their
own, and the alternatives if the tree is a choice. -/
theorem writes_inside (inner : n.Inner) (settled : n.isSettled = true) :
    (∀ m ∈ n.parts, m.isLiteral = false → m.closesWord = false → ∃ xs, xs ≠ [] ∧ Chunk xs m) ∧
      ∀ as, n = .choice .bracket as → ∀ m ∈ as, ∃ ys, Block ys m.parts := by
  induction inner with
  | sequence two each ih =>
    obtain ⟨settled', apart⟩ := Node.settled_parts settled
    refine ⟨fun m hm => ?_, fun as e => by cases e⟩
    have alone := Node.parts_of_not_sequence (Node.isSequence_of_keepApart apart m hm)
    have own := (ih m hm (settled' m hm)).1
    rw [alone] at own
    exact own m (List.mem_singleton_self m)
  | literal ne =>
    refine ⟨List.forall_mem_singleton.2 fun literal => ?_, fun as e => by cases e⟩
    cases literal
  | wildcard =>
    refine ⟨List.forall_mem_singleton.2 fun _ closed => ?_, fun as e => by cases e⟩
    cases closed
  | optional inner ih =>
    obtain ⟨ys, block⟩ := exists_block inner settled (ih settled).1
    have chunk := exists_chunk_optional block inner
    exact ⟨List.forall_mem_singleton.2 fun _ _ => chunk, fun as e => by cases e⟩
  | @choice delimiter alternatives bracketed two each ih =>
    have settled' : ∀ m ∈ alternatives, m.isSettled = true := by
      rw [← Node.eachSettled_iff]
      cases delimiter with
      | bare => exact absurd rfl bracketed
      | _ => exact settled
    have blocks : ∀ m ∈ alternatives, ∃ ys, Block ys m.parts := fun m hm =>
      exists_block (each m hm) (settled' m hm) (ih m hm (settled' m hm)).1
    have chunk := exists_chunk_choice bracketed two each blocks
    refine ⟨List.forall_mem_singleton.2 fun _ _ => chunk, fun as e => ?_⟩
    obtain ⟨-, rfl⟩ := Node.choice.inj e
    exact blocks
  | @negation scope child scope_iff inner ih =>
    refine ⟨List.forall_mem_singleton.2 fun _ closed => ?_, fun as e => by cases e⟩
    have single : ∀ w, child ≠ .literal w ∨ scope = .phrase := by
      intro w
      cases scope with
      | phrase => exact .inr rfl
      | word =>
        refine .inl ?_
        rintro rfl
        cases closed
    have settled' : child.isSettled = true := by
      cases scope with
      | phrase => cases child <;> exact settled
      | word =>
        cases child with
        | literal w => exact absurd rfl ((single w).resolve_right (by simp))
        | _ => exact settled
    obtain ⟨chunks, alternatives⟩ := ih settled'
    exact exists_chunk_negation (.negation scope_iff inner) single
      (exists_block inner settled' chunks) alternatives

variable {opening ending : Symbol}

/-- A slot is written with its braces around its text. -/
theorem Chunk.slot (pair : opening = .startArgument ∧ ending = .endArgument ∨
      opening = .startAssertion ∧ ending = .endAssertion) (ne : t ≠ [])
    (plain : (t.all fun c => !isStructural c) = true) (slot : n.isSlot = true)
    (written : n.toExpression = opening.describe ++ t ++ ending.describe)
    (pushed : ∀ s : Reading, s.Admits [n] → s.pushSlot (Token.ofSymbol opening) t = .ok (s.extend [n])) :
    Chunk [opening, .text t, ending] n where
  tidy := by
    obtain ⟨rfl, rfl⟩ | ⟨rfl, rfl⟩ := pair <;>
      exact ⟨by simpa using ne.symm, by simp [Symbol.Apart], by simp, by simp⟩
  starts := by
    rintro ⟨u, e⟩
    obtain ⟨rfl, rfl⟩ | ⟨rfl, rfl⟩ := pair <;> cases e
  ends := by
    rintro ⟨u, e⟩
    obtain ⟨rfl, rfl⟩ | ⟨rfl, rfl⟩ := pair <;> cases e
  written := by
    have literal : escapeLiteral t = t :=
      escapeLiteral_of_plain fun c hc => by simpa using List.all_eq_true.1 plain c hc
    obtain ⟨rfl, rfl⟩ | ⟨rfl, rfl⟩ := pair <;> simp [written, Symbol.write, literal]
  leads s admits rest := by
    have outside : s.brackets = [] := by
      cases brackets : s.brackets with
      | nil => rfl
      | cons b outer =>
        have fits := admits.fits n (List.mem_singleton_self n)
        rw [brackets] at fits
        rw [Node.Inner.isSlot fits] at slot
        cases slot
    have own := pushed s admits
    obtain ⟨rfl, rfl⟩ | ⟨rfl, rfl⟩ := pair
    all_goals
      simp only [Token.ofSymbol] at own
      simp [Token.ofSymbol, run, outside, slotShape, own, Except.bind]

/-- An argument with a name and a type is not malformed. -/
theorem isMalformedArgument_of_named {position : Nat} (name : (ArgumentSlot.ofText t position).name ≠ "")
    (typeName : (ArgumentSlot.ofText t position).typeName ≠ "") : isMalformedArgument t = false := by
  rw [ArgumentSlot.ofText] at name typeName
  rw [isMalformedArgument]
  cases split : t.splitAtFirst (· == ':') with
  | none => rfl
  | some cut =>
    have full (u : Text) (h : u.asString ≠ "") : u.isEmpty = false := by
      rw [List.isEmpty_eq_false_iff]
      rintro rfl
      exact h rfl
    simp only [split, Option.getD_some] at name typeName
    simp [full _ name, full _ typeName]

/-- A part outside all brackets that is no text is written with symbols of its own. -/
theorem exists_chunk (outer : n.Outer) (placed : n.unplaced = n) (alone : n.isSequence = false)
    (settled : n.isSettled = true) (plain : n.isPlainSlot = true) (literal : n.isLiteral = false)
    (closed : n.closesWord = false) : ∃ xs, xs ≠ [] ∧ Chunk xs n := by
  cases outer with
  | inner inner =>
    have own := (writes_inside inner settled).1 n
    rw [Node.parts_of_not_sequence alone] at own
    exact own (List.mem_singleton_self n) literal closed
  | words => cases closed
  | @argument t position trimmed ne name typeName =>
    obtain rfl : position = 0 := by
      cases placed
      rfl
    refine ⟨_, List.cons_ne_nil _ _, .slot (.inl ⟨rfl, rfl⟩) ne plain rfl rfl fun s _ => ?_⟩
    have named := isMalformedArgument_of_named name typeName
    rw [pushSlot.eq_def]
    simp [trimmed, ne, named, Token.ofSymbol, push, extend, isAssertion]
  | @assertion t position trimmed ne =>
    obtain rfl : position = 0 := by
      cases placed
      rfl
    refine ⟨_, List.cons_ne_nil _ _, .slot (.inr ⟨rfl, rfl⟩) ne plain rfl rfl fun s admits => ?_⟩
    have once : s.asserted = false := by
      have most := admits.once
      cases own : s.asserted with
      | false => rfl
      | true => simp [own, isAssertion] at most
    rw [pushSlot.eq_def]
    simp [trimmed, ne, once, Token.ofSymbol, push, extend, isAssertion]

end Reading

namespace Node

variable {n : Node}

/-- What a tree of an expression is like, wherever its slots stand. -/
structure IsRooted (n : Node) : Prop where
  formed : n.Formed
  outer : ∀ m ∈ n.parts, m.Outer
  once : n.parts.countP isAssertion ≤ 1

theorem isRooted_of_parse {expression : Text} (h : parse expression = .ok n) : n.IsRooted := by
  have wellFormed := isWellFormed_of_parse h
  exact ⟨wellFormed.formed, wellFormed.outer, wellFormed.assertions⟩

/-- What a settled tree is written as gives the tree back, up to the places of its slots. -/
theorem exists_parse_of_settled (rooted : n.IsRooted) (settled : n.isSettled = true)
    (plain : ∀ m ∈ n.parts, m.isPlainSlot = true) :
    ∃ n', parse n.toExpression = .ok n' ∧ n'.unplaced = n.unplaced := by
  obtain ⟨settled', apart⟩ := settled_parts settled
  have outer : ∀ m ∈ n.parts.map Node.unplaced, m.Outer :=
    List.forall_mem_map.2 fun m hm => (rooted.outer m hm).unplaced
  have settled'' : ∀ m ∈ n.parts.map Node.unplaced, m.isSettled = true :=
    List.forall_mem_map.2 fun m hm => (rooted.outer m hm).isSettled_unplaced.trans (settled' m hm)
  have apart' : keepApart (n.parts.map Node.unplaced) = true := (keepApart_unplaced _).trans apart
  have once : (n.parts.map Node.unplaced).countP isAssertion ≤ 1 := by
    have same (m : Node) : m.unplaced.isAssertion = m.isAssertion := by cases m <;> rfl
    simpa [List.countP_map, Function.comp_def, same] using rooted.once
  have chunks : ∀ m ∈ n.parts.map Node.unplaced, m.isLiteral = false → m.closesWord = false →
      ∃ xs, xs ≠ [] ∧ Reading.Chunk xs m := by
    refine List.forall_mem_map.2 fun m hm => ?_
    have own := rooted.outer m hm
    have same : m.unplaced.isPlainSlot = m.isPlainSlot := by cases m <;> rfl
    exact Reading.exists_chunk own.unplaced (unplaced_unplaced own)
      (isSequence_of_keepApart apart' _ (List.mem_map_of_mem hm)) (settled'' _ (List.mem_map_of_mem hm))
      (same.trans (plain m hm))
  obtain ⟨later, row⟩ := Reading.exists_row outer settled'' apart' chunks
  -- the symbols of the row are scanned as they are written, and read as the parts
  have written : n.toExpression = (Symbol.ofText (lead (n.parts.map Node.unplaced)) ++ later).flatMap
      Symbol.write := by
    rw [List.flatMap_append, Symbol.flatMap_write_ofText, row.written, ← unplacedEach_eq_map,
      concatExpression_unplaced, ← toExpression_ofParts, rooted.formed.ofParts_parts]
  have tidy := Reading.tidy_ofText row.tidy row.starts (lead (n.parts.map Node.unplaced))
  obtain ⟨tokens, scanned, symbols⟩ := Token.exists_scanFrom_write tidy.texts tidy.apart 0
  have places : tokens.map Token.unplaced =
      (Symbol.ofText (lead (n.parts.map Node.unplaced)) ++ later).map Token.ofSymbol := by
    rw [← symbols, List.map_map]
    rfl
  have admits : Reading.Admits .start (n.parts.map Node.unplaced) := ⟨outer, by simpa [Reading.start] using once⟩
  have ends := (Reading.leads_ofText _).append (row.leads _ admits) []
  rw [List.append_nil, ← places] at ends
  have done : Reading.run (Reading.start.extend (n.parts.map Node.unplaced)) [] =
      .ok (n.parts.map Node.unplaced) := by
    simp [Reading.run, Reading.extend, Reading.start]
  obtain ⟨parts, run, same⟩ := Reading.exists_run_of_unplaced (s := .start) (ends.trans done)
  have ne : parts.isEmpty = false := by
    rw [List.isEmpty_eq_false_iff]
    rintro rfl
    exact rooted.formed.parts_ne_nil (List.map_eq_nil_iff.1 same.symm)
  refine ⟨ofParts parts, ?_, ?_⟩
  · have scanned' : Token.scan n.toExpression = .ok tokens := by rwa [written]
    rw [parse, scanned']
    dsimp only [Except.bind]
    rw [ofTokens, run]
    dsimp only [Except.bind]
    rw [ne]
    rfl
  · rw [unplaced_ofParts, same, ← unplaced_ofParts, rooted.formed.ofParts_parts]

end Node

end StepMatch
