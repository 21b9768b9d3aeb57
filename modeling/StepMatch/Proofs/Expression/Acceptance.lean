import Mathlib.Data.List.TakeWhile
import StepMatch.Proofs.Expression.Grammatical

/-!
# Reading accepts what is grammatical

How far a reading has come shows in the tokens seen so far: which brackets are open, whether the last
stretch is empty, what a bar may choose from, and whether there was an assertion. So a step of the
reading succeeds exactly if the next token may stand where it does.
-/

namespace StepMatch

theorem firstWord?_eq (t : Text) : firstWord? t =
    if t.head?.any isInk then some (t.takeWhile isInk, t.dropWhile isInk) else none := by
  cases t with
  | nil => rfl
  | cons c t => cases h : isInk c <;> simp [firstWord?, h]

theorem isSome_lastWord? (t : Text) : (lastWord? t).isSome = t.getLast?.any isInk := by
  rw [← List.head?_reverse, lastWord?.eq_def]
  cases t.reverse with
  | nil => rfl
  | cons c r => cases h : isInk c <;> simp [h]

theorem dropWhile_isInk_eq_nil_iff {t : Text} : t.dropWhile isInk = [] ↔ t.any isBlank = false := by
  induction t with
  | nil => simp
  | cons c t ih => cases h : isBlank c <;> simp [isInk, h, ih]

/-- Text without its first word closes as the text does. -/
theorem Text.endsInStar_dropWhile {t : Text} (more : t.dropWhile isInk ≠ []) (fresh : Bool) :
    Text.endsInStar true (t.dropWhile isInk) = Text.endsInStar fresh t := by
  induction t generalizing fresh with
  | nil => exact absurd rfl more
  | cons c t ih =>
    cases ink : isInk c
    · have whole : (c :: t).dropWhile isInk = c :: t := by simp [ink]
      rw [whole]
      obtain rfl | ne := eq_or_ne t []
      · have other : c ≠ '*' := by
          rintro rfl
          cases ink
        simp only [endsInStar, List.reverse_singleton]
        split
        · rename_i e
          exact absurd (List.cons.inj e).1 other
        · rfl
      · rw [endsInStar_cons ne, endsInStar_cons ne]
    · rw [List.dropWhile_cons, if_pos ink] at more ⊢
      have ne : t ≠ [] := fun e => more (by simp [e])
      rw [endsInStar_cons ne]
      exact ih more _

/-- A single word that closes with a star of its own is that star. -/
theorem Text.eq_star_of_endsInStar {t : Text} (word : t.any isBlank = false)
    (star : Text.endsInStar true t = true) : t = ['*'] := by
  rw [endsInStar.eq_def] at star
  split at star
  · rename_i before e
    have e : t = before.reverse ++ ['*'] := by simpa using congrArg List.reverse e
    cases before with
    | nil => exact e
    | cons c before =>
      have blank : isBlank c = true := star
      simp [e, blank] at word
  · cases star

namespace Text

theorem splitAtFirst_cons (p : Char → Bool) (c : Char) (t : Text) :
    Text.splitAtFirst (c :: t) p = if p c then some ([], t)
      else (Text.splitAtFirst t p).map fun cut => (c :: cut.1, cut.2) := by
  cases h : p c
  · simp only [splitAtFirst, List.dropWhile_cons, List.takeWhile_cons, h, Bool.not_false, if_true]
    split <;> simp_all
  · simp [splitAtFirst, h]

/-- Text around the cut goes to either side. -/
theorem splitAtFirst_append {p : Char → Bool} {left right : Text}
    (before : ∀ c ∈ left, p c = false) (after : ∀ c ∈ right, p c = false) (t : Text) :
    Text.splitAtFirst (left ++ t ++ right) p =
      (Text.splitAtFirst t p).map fun cut => (left ++ cut.1, cut.2 ++ right) := by
  induction left with
  | nil =>
    simp only [List.nil_append]
    induction t with
    | nil =>
      have none : right.dropWhile (fun c => !p c) = [] := by
        simp only [List.dropWhile_eq_nil_iff, Bool.not_eq_true']
        exact after
      simp [splitAtFirst, none]
    | cons c t ih =>
      rw [List.cons_append, splitAtFirst_cons, splitAtFirst_cons, ih]
      cases p c <;> simp [Function.comp_def]
  | cons c left ih =>
    obtain ⟨own, before⟩ := List.forall_mem_cons.1 before
    rw [List.cons_append, List.cons_append, splitAtFirst_cons, ih before, own]
    simp [Function.comp_def]

theorem trim_eq_nil_iff {t : Text} : t.trim = [] ↔ ∀ c ∈ t, isBlank c = true := by
  constructor
  · intro none
    obtain ⟨left, right, e, blank⟩ := eq_append_trim t
    rw [none, List.append_nil] at e
    rwa [e]
  · intro blank
    have none : t.trimLeft = [] := by
      simpa [trimLeft, List.dropWhile_eq_nil_iff] using blank
    simp [trim, none, trimRight]

end Text

namespace Reading

open Token (openAfter Outside lastSymbol? OffersWord OpensWithWord LeavesEmpty Allowed Allows
  filling? NamesArgument nest)

variable {s s' : Reading} {seen rest tokens : List Token} {token : Token} {t : Text}
  {start stop : Nat}

/-- The last token calls for others after it. -/
def Pending (seen : List Token) : Prop :=
  lastSymbol? seen = some .negation ∨ lastSymbol? seen = some .startArgument ∨
    lastSymbol? seen = some .startAssertion

/-- The last tokens open a slot and fill it. -/
def Filled (seen : List Token) : Prop :=
  ∃ earlier opener text t, seen = earlier ++ [opener, text] ∧
    (opener.symbol = .startArgument ∨ opener.symbol = .startAssertion) ∧ text.symbol = .text t

theorem not_filled (other : ∀ t, token.symbol ≠ .text t) : ¬ Filled (seen ++ [token]) := by
  rintro ⟨earlier, opener, text, t, e, -, symbol⟩
  have e : seen ++ [token] = (earlier ++ [opener]) ++ [text] := by simpa using e
  obtain ⟨-, e⟩ := List.append_inj' e rfl
  cases e
  exact other t symbol

theorem not_filled_text (settled : ¬ Pending seen) : ¬ Filled (seen ++ [token]) := by
  rintro ⟨earlier, opener, text, t, e, opens, -⟩
  have e : seen ++ [token] = (earlier ++ [opener]) ++ [text] := by simpa using e
  obtain ⟨rfl, -⟩ := List.append_inj' e rfl
  refine settled (.inr ?_)
  simpa using opens

/-- What a reading has come to shows in the tokens that it has read. -/
structure Mirrors (s : Reading) (seen : List Token) : Prop where
  formed : s.IsFormed
  nested : openAfter seen = some (s.brackets.map fun b => b.opener.symbol)
  delimited : ∀ b ∈ s.brackets, b.opener.symbol = .startOptional ∧ b.delimiter = .parenthesis ∨
    b.opener.symbol = .startGroup ∧ b.delimiter = .bracket
  finished : ∀ b ∈ s.brackets, [] ∉ b.finished
  empty : s.parts = [] ↔ seen = [] ∨ LeavesEmpty seen
  choosable : s.brackets = [] → lastSymbol? seen ≠ some .endGroup →
    (s.parts.head?.any Node.isChoosable = true ↔ OffersWord seen)
  settled : ¬ Pending seen
  unfilled : ¬ Filled seen
  noBar : s.brackets = [] → lastSymbol? seen ≠ some .choiceSeparator
  asserted : s.asserted = true ↔ ∃ token ∈ seen, token.symbol = .startAssertion

theorem mirrors_start : Reading.start.Mirrors [] where
  formed := isFormed_start
  nested := rfl
  delimited := by simp [Reading.start]
  finished := by simp [Reading.start]
  empty := by simp [Reading.start]
  choosable := by simp [Reading.start, OffersWord, Token.ClosesWithWord]
  settled := by simp [Pending, lastSymbol?]
  unfilled := by simp [Filled]
  noBar := by simp [lastSymbol?]
  asserted := by simp [Reading.start]

/-- After text, what a bar may choose from is what the text closes with. -/
theorem head?_pushText (ne : t ≠ []) : (s.pushText t).parts.head?.any Node.isChoosable =
    (t.getLast?.any isInk && !Text.endsInStar true t) := by
  have some : (Node.carve t).reverse ≠ [] := by
    rw [Ne, List.reverse_eq_nil_iff]
    exact Node.carveFrom_ne_nil ne true
  rw [pushText, List.head?_append_of_ne_nil _ some, List.head?_reverse]
  exact Node.isChoosable_carveFrom ne true

theorem pushText_ne_nil (ne : t ≠ []) : (s.pushText t).parts ≠ [] := by
  have some : (Node.carve t).reverse ≠ [] := by
    rw [Ne, List.reverse_eq_nil_iff]
    exact Node.carveFrom_ne_nil ne true
  exact List.append_ne_nil_of_left_ne_nil some s.parts

/-- After the rest of a text whose first word has become a part of its own, what a bar may choose from
is what the text closes with, or else that part. -/
theorem head?_pushText_rest {n : Node} {before : List Node} {brackets : List Bracket}
    {asserted : Bool} :
    ((⟨n :: before, brackets, asserted⟩ : Reading).pushText
      (t.dropWhile isInk)).parts.head?.any Node.isChoosable =
      if t.any isBlank then t.getLast?.any isInk && !Text.endsInStar true t
      else n.isChoosable := by
  split
  · rename_i blank
    have more : t.dropWhile isInk ≠ [] := by
      rw [Ne, dropWhile_isInk_eq_nil_iff, blank]
      simp
    have last : t.getLast? = (t.dropWhile isInk).getLast? := by
      rw [← List.getLast?_append_of_ne_nil (t.takeWhile isInk) more,
        List.takeWhile_append_dropWhile]
    rw [head?_pushText more, last, Text.endsInStar_dropWhile more true]
  · rename_i word
    rw [dropWhile_isInk_eq_nil_iff.2 (by simpa using word)]
    rfl

theorem rest_ne_nil {n : Node} {before : List Node} {brackets : List Bracket} {asserted : Bool} :
    ((⟨n :: before, brackets, asserted⟩ : Reading).pushText t).parts ≠ [] :=
  List.append_ne_nil_of_right_ne_nil _ (List.cons_ne_nil n before)

/-- Other tokens are no assertions. -/
theorem exists_startAssertion_append {more : List Token}
    (none : ∀ token ∈ more, token.symbol ≠ .startAssertion) :
    (∃ token ∈ seen ++ more, token.symbol = .startAssertion) ↔
      ∃ token ∈ seen, token.symbol = .startAssertion := by
  constructor
  · rintro ⟨token, mem, symbol⟩
    obtain mem | mem := List.mem_append.1 mem
    · exact ⟨token, mem, symbol⟩
    · exact absurd symbol (none token mem)
  · rintro ⟨token, mem, symbol⟩
    exact ⟨token, List.mem_append_left _ mem, symbol⟩

theorem Mirrors.pushText (m : s.Mirrors seen) (ne : t ≠ []) :
    (s.pushText t).Mirrors (seen ++ [⟨.text t, start, stop⟩]) where
  formed := m.formed.pushText t
  nested := by
    rw [Token.openAfter_of_other (by simp) (by simp) (by simp) (by simp)]
    exact m.nested
  delimited := m.delimited
  finished := m.finished
  empty := by simp [pushText_ne_nil ne, LeavesEmpty]
  choosable := by
    intro outside _
    rw [head?_pushText ne, Token.offersWord_text_iff]
    have noCaret : lastSymbol? seen ≠ some .negation := fun h => m.settled (.inl h)
    have noBar := m.noBar outside
    cases Text.endsInStar true t <;> simp [noCaret, noBar]
  settled := by simp [Pending]
  unfilled := not_filled_text m.settled
  noBar := by simp
  asserted := m.asserted.trans (exists_startAssertion_append (by simp)).symm

theorem Mirrors.negateWord (m : s.Mirrors seen) {caret : Token} (symbol : caret.symbol = .negation)
    (e : s.negateWord caret t = .ok s') :
    s'.Mirrors (seen ++ [caret, ⟨.text t, start, stop⟩]) := by
  have formed := m.formed.negateWord e
  rw [Reading.negateWord, firstWord?_eq] at e
  split at e
  · cases e
  rename_i word rest first
  split at first <;> cases first
  cases e
  have same : openAfter (seen ++ [caret, ⟨.text t, start, stop⟩]) = openAfter seen := by
    rw [List.append_cons, Token.openAfter_of_other (by simp) (by simp) (by simp) (by simp),
      Token.openAfter_of_other (by simp [symbol]) (by simp [symbol]) (by simp [symbol])
        (by simp [symbol])]
  refine ⟨formed, same.trans m.nested, m.delimited, m.finished, ?_, ?_, by simp [Pending], ?_,
    by simp, ?_⟩
  · simp [LeavesEmpty, push, rest_ne_nil]
  · intro outside _
    rw [push, head?_pushText_rest, List.append_cons, Token.offersWord_text_iff]
    cases blank : t.any isBlank <;> cases Text.endsInStar true t <;>
      simp [symbol, Node.isChoosable]
  · rintro ⟨earlier, opener, text, t', e, opens, -⟩
    obtain ⟨-, e⟩ := List.append_inj' e rfl
    cases e
    simp [symbol] at opens
  · exact m.asserted.trans (exists_startAssertion_append (by simp [symbol])).symm

theorem negateWord_ok_iff {caret : Token} :
    (∃ s', s.negateWord caret t = .ok s') ↔ t.head?.any isInk = true := by
  rw [Reading.negateWord, firstWord?_eq]
  cases t.head?.any isInk <;> simp

/-- A bar outside brackets chooses between words if there is one on either side. -/
theorem chooseWord_ok_iff {bar : Token} : (∃ s', s.chooseWord bar t = .ok s') ↔
    t.head?.any isInk = true ∧ s.parts.head?.any Node.isChoosable = true := by
  rw [chooseWord.eq_def, firstWord?_eq]
  cases t.head?.any isInk with
  | false => simp
  | true =>
    simp only [if_true, true_and]
    split
    · rename_i parts
      simp [parts, Node.isChoosable]
    · rename_i l before parts
      have last := isSome_lastWord? l
      simp only [parts, List.head?_cons, Option.any_some, Node.isChoosable, ← last]
      split <;> simp_all
    · rename_i choice literal
      cases parts : s.parts with
      | nil => simp
      | cons n before =>
        have other : n.isChoosable = false := by
          rw [Node.isChoosable.eq_def]
          split
          · exact absurd parts (choice _ _)
          · exact absurd parts (literal _ _)
          · rfl
        simp [other]

/-- The choice that a bar makes takes the place of what is in front of it. -/
theorem eq_of_chooseWord {bar : Token} (e : s.chooseWord bar t = .ok s') :
    t.head?.any isInk = true ∧ ∃ alternatives before, s' = Reading.pushText
      ⟨.choice .bare alternatives :: before, s.brackets, s.asserted⟩ (t.dropWhile isInk) := by
  refine ⟨(chooseWord_ok_iff.1 ⟨s', e⟩).1, ?_⟩
  rw [chooseWord.eq_def, firstWord?_eq] at e
  split at e
  · cases e
  rename_i word rest first
  split at first <;> cases first
  split at e
  · cases e
    exact ⟨_, _, rfl⟩
  · split at e <;> cases e
    · exact ⟨_, _, rfl⟩
    · exact ⟨_, _, rfl⟩
  · cases e

theorem Mirrors.chooseWord (m : s.Mirrors seen) (outside : s.brackets = []) {bar : Token}
    (symbol : bar.symbol = .choiceSeparator) (e : s.chooseWord bar t = .ok s') :
    s'.Mirrors (seen ++ [bar, ⟨.text t, start, stop⟩]) := by
  have formed := m.formed.chooseWord outside e
  obtain ⟨opens, alternatives, before, rfl⟩ := eq_of_chooseWord e
  have same : openAfter (seen ++ [bar, ⟨.text t, start, stop⟩]) = openAfter seen := by
    rw [List.append_cons, Token.openAfter_of_other (by simp) (by simp) (by simp) (by simp),
      Token.openAfter_bar symbol]
  refine ⟨formed, same.trans m.nested, m.delimited, m.finished, ?_, ?_, by simp [Pending], ?_,
    by simp, ?_⟩
  · simp [LeavesEmpty, rest_ne_nil]
  · intro _ _
    rw [head?_pushText_rest, List.append_cons, Token.offersWord_text_iff]
    cases blank : t.any isBlank with
    | false =>
      have closes : t.getLast?.any isInk = true := by
        have ne : t ≠ [] := by
          rintro rfl
          cases opens
        have ink := List.any_eq_false.1 blank _ (List.getLast_mem ne)
        rw [List.getLast?_eq_some_getLast ne]
        simpa [isInk] using ink
      have star := Text.eq_star_of_endsInStar blank
      simp [symbol, Node.isChoosable, closes]
      exact star
    | true =>
      have other : t ≠ ['*'] := by
        rintro rfl
        cases blank
      cases Text.endsInStar true t <;> simp [symbol, other]
  · rintro ⟨earlier, opener, text, t', e, opens, -⟩
    obtain ⟨-, e⟩ := List.append_inj' e rfl
    cases e
    simp [symbol] at opens
  · exact m.asserted.trans (exists_startAssertion_append (by simp [symbol])).symm

theorem Mirrors.openBracket (m : s.Mirrors seen) {opener : Token} {delimiter : Delimiter}
    (opens : opener.symbol = .startOptional ∧ delimiter = .parenthesis ∨
      opener.symbol = .startGroup ∧ delimiter = .bracket)
    (negated : Bool) {seen' : List Token} (same : openAfter seen' = openAfter seen)
    (asserted : (∃ token ∈ seen', token.symbol = .startAssertion) ↔
      ∃ token ∈ seen, token.symbol = .startAssertion) :
    (s.openBracket opener delimiter negated).Mirrors (seen' ++ [opener]) := by
  refine ⟨?_, ?_, ?_, ?_, ?_, ?_, ?_, ?_, ?_, ?_⟩
  · refine m.formed.openBracket opener ?_ negated
    obtain ⟨-, rfl⟩ | ⟨-, rfl⟩ := opens <;> decide
  · have nested := same.trans m.nested
    obtain ⟨symbol, -⟩ | ⟨symbol, -⟩ := opens
    · rw [Token.openAfter_startOptional nested symbol, ← symbol]
      rfl
    · rw [Token.openAfter_startGroup nested symbol, ← symbol]
      rfl
  · exact List.forall_mem_cons.2 ⟨opens, m.delimited⟩
  · exact List.forall_mem_cons.2 ⟨by simp, m.finished⟩
  · obtain ⟨symbol, -⟩ | ⟨symbol, -⟩ := opens <;> simp [Reading.openBracket, LeavesEmpty, symbol]
  · simp [Reading.openBracket]
  · obtain ⟨symbol, -⟩ | ⟨symbol, -⟩ := opens <;> simp [Pending, symbol]
  · obtain ⟨symbol, -⟩ | ⟨symbol, -⟩ := opens <;> exact not_filled (by simp [symbol])
  · simp [Reading.openBracket]
  · refine (m.asserted.trans asserted.symm).trans (exists_startAssertion_append ?_).symm
    obtain ⟨symbol, -⟩ | ⟨symbol, -⟩ := opens <;> simp [symbol]

theorem Mirrors.nextAlternative (m : s.Mirrors seen) {b : Bracket} {outer : List Bracket}
    (brackets : s.brackets = b :: outer) (some : s.parts ≠ []) {bar : Token}
    (symbol : bar.symbol = .choiceSeparator) :
    (s.nextAlternative b outer).Mirrors (seen ++ [bar]) := by
  have delimited := m.delimited
  have finished := m.finished
  have nested := m.nested
  rw [brackets] at delimited finished nested
  refine ⟨m.formed.nextAlternative brackets, ?_, ?_, ?_, ?_, ?_, ?_, ?_, ?_, ?_⟩
  · rw [Token.openAfter_bar symbol]
    exact nested
  · exact List.forall_mem_cons.2 ⟨delimited b List.mem_cons_self,
      fun b' hb => delimited b' (List.mem_cons_of_mem b hb)⟩
  · refine List.forall_mem_cons.2 ⟨?_, fun b' hb => finished b' (List.mem_cons_of_mem b hb)⟩
    simpa [some] using finished b List.mem_cons_self
  · simp [Reading.nextAlternative, LeavesEmpty, symbol]
  · simp [Reading.nextAlternative]
  · simp [Pending, symbol]
  · exact not_filled (by simp [symbol])
  · simp [Reading.nextAlternative]
  · exact m.asserted.trans (exists_startAssertion_append (by simp [symbol])).symm

/-- A bracket goes with the token that closes it. -/
theorem closer_iff {b : Bracket} (delimited : b.opener.symbol = .startOptional ∧
      b.delimiter = .parenthesis ∨ b.opener.symbol = .startGroup ∧ b.delimiter = .bracket) :
    (b.closer = .endOptional ↔ b.opener.symbol = .startOptional) ∧
      (b.closer = .endGroup ↔ b.opener.symbol = .startGroup) := by
  obtain ⟨opens, delimiter⟩ | ⟨opens, delimiter⟩ := delimited <;>
    simp [Bracket.closer, opens, delimiter]

/-- Brackets stand for something if none of their stretches is empty. -/
theorem node_ok_iff {b : Bracket} (finished : [] ∉ b.finished) {last : List Node} :
    (∃ n, b.node last = .ok n) ↔ last ≠ [] := by
  have full : (last :: b.finished).reverse.any List.isEmpty = true ↔ last = [] := by
    rw [List.any_eq_true]
    constructor
    · rintro ⟨ns, mem, empty⟩
      obtain rfl := List.isEmpty_iff.1 empty
      obtain rfl | mem := List.mem_cons.1 (List.mem_reverse.1 mem)
      · rfl
      · exact absurd mem finished
    · rintro rfl
      exact ⟨[], by simp, rfl⟩
  rw [Bracket.node.eq_def]
  split
  · cases last with
    | nil => simp
    | cons n ns => cases b.delimiter <;> simp
  · simp only [full]
    split <;> simp_all

/-- The innermost bracket can be closed by the token that goes with it, if its last stretch is not
empty. -/
theorem closeBracket_ok_iff (m : s.Mirrors seen)
    (closes : token.symbol = .endOptional ∨ token.symbol = .endGroup) :
    (∃ s', s.closeBracket token = .ok s') ↔ Allowed seen token.symbol rest := by
  cases brackets : s.brackets with
  | nil =>
    have nested := m.nested
    rw [brackets] at nested
    have failed : ¬ ∃ s', s.closeBracket token = .ok s' := by
      simp [closeBracket_eq_ok_iff, brackets]
    simp only [failed, false_iff]
    obtain symbol | symbol := closes <;> simp [symbol, Allowed, nested]
  | cons b outer =>
    have nested := m.nested
    have delimited := m.delimited b (brackets ▸ List.mem_cons_self)
    have finished := m.finished b (brackets ▸ List.mem_cons_self)
    rw [brackets] at nested
    have some : s.parts.reverse ≠ [] ↔ ¬ LeavesEmpty seen := by
      have begun : seen ≠ [] := by
        rintro rfl
        cases nested
      rw [Ne, List.reverse_eq_nil_iff, m.empty]
      simp [begun]
    have closed : (∃ s', s.closeBracket token = .ok s') ↔
        token.symbol = b.closer ∧ ¬ LeavesEmpty seen := by
      rw [← some, ← node_ok_iff finished]
      simp only [closeBracket_eq_ok_iff, brackets, List.cons.injEq]
      constructor
      · rintro ⟨s', b', outer', n, ⟨rfl, rfl⟩, closes, made, -⟩
        exact ⟨closes, n, made⟩
      · rintro ⟨closes, n, made⟩
        exact ⟨_, b, outer, n, ⟨rfl, rfl⟩, closes, made, rfl⟩
    rw [closed]
    obtain ⟨optional, group⟩ := closer_iff delimited
    obtain symbol | symbol := closes
    · rw [symbol, eq_comm, optional]
      simp [Allowed, nested]
    · rw [symbol, eq_comm, group]
      simp [Allowed, nested]

theorem afterBracket_brackets (s : Reading) (b : Bracket) (outer : List Bracket) (n : Node) :
    (s.afterBracket b outer n).brackets = outer ∧
      (s.afterBracket b outer n).asserted = s.asserted := by
  unfold afterBracket
  split
  · exact ⟨rfl, rfl⟩
  · split <;> exact ⟨rfl, rfl⟩

/-- What stands in parentheses is no word, and no part of a row. -/
theorem node_of_parenthesis {b : Bracket} (delimiter : b.delimiter = .parenthesis) {last : List Node}
    {n : Node} (made : b.node last = .ok n) :
    n.isChoosable = false ∧ ∀ children, n ≠ .sequence children := by
  rw [Bracket.node.eq_def, delimiter] at made
  split at made
  · split at made <;> cases made
    exact ⟨rfl, by simp⟩
  · simp only at made
    split at made <;> cases made
    exact ⟨rfl, by simp⟩

/-- Brackets that are closed leave a part behind. No bar may choose from what stood in parentheses. -/
theorem afterBracket_parts (s : Reading) {b : Bracket} (outer : List Bracket) {n : Node}
    {last : List Node} (inner : n.Inner) (made : b.node last = .ok n) : (s.afterBracket b outer n).parts ≠ [] ∧
      (b.delimiter = .parenthesis →
        (s.afterBracket b outer n).parts.head?.any Node.isChoosable = false) := by
  unfold afterBracket
  split
  · exact ⟨List.cons_ne_nil _ _, fun _ => rfl⟩
  · split
    · refine ⟨?_, fun delimiter => absurd rfl ((node_of_parenthesis delimiter made).2 _)⟩
      cases inner with
      | sequence two =>
        apply List.append_ne_nil_of_left_ne_nil
        rw [Ne, List.reverse_eq_nil_iff]
        exact List.ne_nil_of_length_pos (by omega)
    · refine ⟨List.cons_ne_nil _ _, fun delimiter => ?_⟩
      have other := (node_of_parenthesis delimiter made).1
      simpa [push] using other

theorem Mirrors.closeBracket (m : s.Mirrors seen)
    (closes : token.symbol = .endOptional ∨ token.symbol = .endGroup)
    (e : s.closeBracket token = .ok s') : s'.Mirrors (seen ++ [token]) := by
  have formed := m.formed.closeBracket e
  obtain ⟨b, outer, n, brackets, closer, made, rfl⟩ := closeBracket_eq_ok_iff.1 e
  obtain ⟨parts, waits⟩ := m.formed
  have delimited := m.delimited
  have finished := m.finished
  have nested := m.nested
  rw [brackets] at parts waits delimited finished nested
  obtain ⟨own, delimited⟩ := List.forall_mem_cons.1 delimited
  obtain ⟨-, finished⟩ := List.forall_mem_cons.1 finished
  obtain ⟨bracketed, -, inside, -⟩ := waits
  have inner : n.Inner := inner_of_bracket_node bracketed
    (fun m hm => parts m (List.mem_reverse.1 hm)) inside made
  obtain ⟨some, choosable⟩ := s.afterBracket_parts outer inner made
  have left := s.afterBracket_brackets b outer n
  have noText : ∀ t, token.symbol ≠ .text t := by
    obtain symbol | symbol := closes <;> simp [symbol]
  refine ⟨formed, ?_, ?_, ?_, ?_, ?_, ?_, not_filled noText, ?_, ?_⟩
  · rw [left.1, Token.openAfter_concat, nested]
    obtain symbol | symbol := closes
    · have opens := (closer_iff own).1.1 (closer.symm.trans symbol)
      exact (Token.nest_endOptional symbol).2 (by rw [List.map_cons, opens])
    · have opens := (closer_iff own).2.1 (closer.symm.trans symbol)
      exact (Token.nest_endGroup symbol).2 (by rw [List.map_cons, opens])
  · rwa [left.1]
  · rwa [left.1]
  · obtain symbol | symbol := closes <;> simp [some, LeavesEmpty, symbol]
  · intro _ notGroup
    obtain symbol | symbol := closes
    · have opens := (closer_iff own).1.1 (closer.symm.trans symbol)
      have delimiter : b.delimiter = .parenthesis := by
        obtain ⟨-, delimiter⟩ | ⟨opens', -⟩ := own
        · exact delimiter
        · rw [opens] at opens'
          cases opens'
      simp [choosable delimiter, Token.not_offersWord noText]
    · simp [symbol] at notGroup
  · obtain symbol | symbol := closes <;> simp [Pending, symbol]
  · obtain symbol | symbol := closes <;> simp [symbol]
  · rw [left.2]
    refine m.asserted.trans (exists_startAssertion_append ?_).symm
    obtain symbol | symbol := closes <;> simp [symbol]

/-- A reading with an empty stretch in open brackets comes to nothing. -/
theorem run_of_empty (h : ∃ b ∈ s.brackets, [] ∈ b.finished) {parts : List Node} :
    s.run tokens ≠ .ok parts := by
  intro e
  fun_induction Reading.run s tokens with
  | case1 s outside =>
    rw [outside] at h
    simp at h
  | case3 s token rest t symbol ih => exact ih h e
  | case4 s token rest symbol ih | case5 s token rest symbol ih =>
    obtain ⟨b, mem, empty⟩ := h
    exact ih ⟨b, List.mem_cons_of_mem _ mem, empty⟩ e
  | case6 s token rest symbol ih | case7 s token rest symbol ih =>
    obtain ⟨s', closed, e⟩ := ok_of_bind e
    obtain ⟨b, outer, n, brackets, -, made, rfl⟩ := closeBracket_eq_ok_iff.1 closed
    rw [brackets] at h
    obtain ⟨b', mem, empty⟩ := h
    refine ih _ ⟨b', ?_, empty⟩ e
    rw [(s.afterBracket_brackets b outer n).1]
    obtain rfl | mem := List.mem_cons.1 mem
    · -- the innermost bracket stands for nothing
      have refused : (s.parts.reverse :: b'.finished).reverse.any List.isEmpty = true :=
        List.any_eq_true.2 ⟨[], by simp [empty], rfl⟩
      rw [Bracket.node.eq_def] at made
      split at made
      · rename_i none
        simp [none] at empty
      · simp only [refused, if_true, reduceCtorEq] at made
    · exact mem
  | case8 s token symbol b outer rest brackets ih =>
    rw [brackets] at h
    obtain ⟨b', mem, empty⟩ := h
    obtain rfl | mem := List.mem_cons.1 mem
    · exact ih ⟨_, List.mem_cons_self, List.mem_cons_of_mem _ empty⟩ e
    · exact ih ⟨b', List.mem_cons_of_mem _ mem, empty⟩ e
  | case11 s token symbol t start stop rest ih =>
    obtain ⟨s', negated, e⟩ := ok_of_bind e
    rw [Reading.negateWord.eq_def] at negated
    split at negated <;> cases negated
    refine ih _ ?_ e
    exact h
  | case12 s token symbol start stop rest ih =>
    obtain ⟨b, mem, empty⟩ := h
    exact ih ⟨b, List.mem_cons_of_mem _ mem, empty⟩ e
  | case9 s token symbol t start stop rest outside =>
    rw [outside] at h
    simp at h
  | case14 s token symbol outside | case18 s token symbol outside =>
    rw [List.isEmpty_iff.1 outside] at h
    simp at h
  | _ => cases e

/-- Blanks around the text of an argument do not matter to its name and its type. -/
theorem namesArgument_iff {t : Text} :
    NamesArgument t ↔ t.trim ≠ [] ∧ isMalformedArgument t.trim = false := by
  obtain ⟨left, right, whole, blank⟩ := Text.eq_append_trim t
  have before : ∀ c ∈ left, isBlank c = true := fun c hc => blank c (List.mem_append_left _ hc)
  have after : ∀ c ∈ right, isBlank c = true := fun c hc => blank c (List.mem_append_right _ hc)
  have noColon : ∀ c, isBlank c = true → (c == ':') = false := by
    intro c blank
    rw [beq_eq_false_iff_ne]
    rintro rfl
    cases blank
  have cut := Text.splitAtFirst_append (fun c hc => noColon c (before c hc))
    (fun c hc => noColon c (after c hc)) t.trim
  rw [← whole] at cut
  have onLeft : ∀ a : Text, Text.trim (left ++ a) = [] ↔ a.trim = [] := by
    intro a
    simp only [Text.trim_eq_nil_iff, List.forall_mem_append]
    exact ⟨And.right, fun inside => ⟨before, inside⟩⟩
  have onRight : ∀ a : Text, Text.trim (a ++ right) = [] ↔ a.trim = [] := by
    intro a
    simp only [Text.trim_eq_nil_iff, List.forall_mem_append]
    exact ⟨And.left, fun inside => ⟨inside, after⟩⟩
  rw [NamesArgument, cut, isMalformedArgument.eq_def]
  cases t.trim.splitAtFirst (· == ':') with
  | none => simp
  | some sides =>
    obtain ⟨name, typeName⟩ := sides
    simp [onLeft, onRight]

/-- What reading a slot comes to. -/
theorem pushSlot_eq_ok_iff {opener : Token} : s.pushSlot opener t = .ok s' ↔
    (opener.symbol = .startAssertion ∧ t.trim ≠ [] ∧ s.asserted = false ∧
        s' = { s.push (.assertion t.trim opener.start) with asserted := true }) ∨
      opener.symbol ≠ .startAssertion ∧ NamesArgument t ∧
        s' = s.push (.argument t.trim opener.start) := by
  rw [pushSlot.eq_def, namesArgument_iff]
  by_cases symbol : opener.symbol = .startAssertion
  · by_cases none : t.trim = []
    · simp [symbol, none]
    · cases s.asserted with
      | true => simp [symbol, none]
      | false =>
        simp only [symbol, none, List.isEmpty_iff, if_true, if_false, Except.ok.injEq, ne_eq,
          not_false_eq_true, not_true_eq_false, false_and, or_false, true_and, Bool.false_eq_true]
        exact eq_comm
  · by_cases none : t.trim = []
    · simp [symbol, none]
    · cases malformed : isMalformedArgument t.trim with
      | true => simp [symbol, none, malformed]
      | false =>
        simp only [symbol, none, malformed, List.isEmpty_iff, if_false, Except.ok.injEq, ne_eq,
          not_false_eq_true, false_and, false_or, true_and, Bool.false_eq_true]
        exact eq_comm

theorem Mirrors.pushSlot (m : s.Mirrors seen) (outside : s.brackets = []) {opener : Token}
    (opens : opener.symbol = .startArgument ∨ opener.symbol = .startAssertion) {closer : Symbol}
    (closes : closer = (slotShape opener).1) {start' stop' : Nat}
    (e : s.pushSlot opener t = .ok s') :
    s'.Mirrors (seen ++ [opener, ⟨.text t, start, stop⟩, ⟨closer, start', stop'⟩]) := by
  have formed := m.formed.pushSlot outside e
  have ends : closer = .endArgument ∨ closer = .endAssertion := by
    rw [closes, slotShape]
    split <;> simp
  have same : openAfter (seen ++ [opener, ⟨.text t, start, stop⟩, ⟨closer, start', stop'⟩]) =
      openAfter seen := by
    rw [List.append_cons, List.append_cons, Token.openAfter_of_other, Token.openAfter_of_other,
      Token.openAfter_of_other]
    all_goals
      obtain symbol | symbol := ends <;> obtain symbol' | symbol' := opens <;>
        simp [symbol, symbol']
  have shape : s'.brackets = s.brackets ∧ s'.parts ≠ [] ∧
      s'.parts.head?.any Node.isChoosable = false ∧
      (s'.asserted = true ↔ opener.symbol = .startAssertion ∨ s.asserted = true) := by
    obtain ⟨symbol, -, -, rfl⟩ | ⟨symbol, -, rfl⟩ := pushSlot_eq_ok_iff.1 e
    · exact ⟨rfl, List.cons_ne_nil _ _, rfl, by simp [symbol]⟩
    · exact ⟨rfl, List.cons_ne_nil _ _, rfl, by simp [symbol, push]⟩
  obtain ⟨brackets, some, choosable, asserted⟩ := shape
  have noText : ∀ t, (⟨closer, start', stop'⟩ : Token).symbol ≠ .text t := by
    obtain symbol | symbol := ends <;> simp [symbol]
  refine ⟨formed, ?_, ?_, ?_, ?_, ?_, ?_, ?_, ?_, ?_⟩
  · rw [same, brackets]
    exact m.nested
  · rw [brackets]
    exact m.delimited
  · rw [brackets]
    exact m.finished
  · obtain symbol | symbol := ends <;> simp [some, LeavesEmpty, symbol]
  · intro _ _
    rw [choosable, List.append_cons, List.append_cons]
    simp only [Bool.false_eq_true, false_iff]
    exact Token.not_offersWord noText
  · obtain symbol | symbol := ends <;> simp [Pending, symbol]
  · rw [List.append_cons, List.append_cons]
    exact not_filled noText
  · obtain symbol | symbol := ends <;> simp [symbol]
  · rw [asserted, m.asserted, List.append_cons, exists_startAssertion_append]
    · constructor
      · rintro (symbol | ⟨token, mem, symbol⟩)
        · exact ⟨opener, by simp, symbol⟩
        · exact ⟨token, List.mem_append_left _ mem, symbol⟩
      · rintro ⟨token, mem, symbol⟩
        obtain mem | mem := List.mem_append.1 mem
        · exact .inr ⟨token, mem, symbol⟩
        · exact .inl (List.mem_singleton.1 mem ▸ symbol)
    · obtain symbol | symbol := ends <;> simp [symbol]

/-- The text that fills a slot stands between its ends. -/
theorem filling?_eq_some_iff {closer : Symbol} {after : List Token} :
    filling? closer after = some t ↔ ∃ start stop start' stop' rest,
      after = ⟨.text t, start, stop⟩ :: ⟨closer, start', stop'⟩ :: rest := by
  unfold Token.filling?
  split
  · split
    · rename_i same
      subst same
      constructor
      · rintro ⟨⟩
        exact ⟨_, _, _, _, _, rfl⟩
      · rintro ⟨_, _, _, _, _, e⟩
        cases e
        rfl
    · rename_i other
      simp only [reduceCtorEq, List.cons.injEq, Token.mk.injEq, false_iff, not_exists]
      rintro _ _ _ _ _ ⟨-, ⟨same, -⟩, -⟩
      exact other same
  · rename_i other
    simp only [reduceCtorEq, false_iff, not_exists]
    rintro _ _ _ _ _ rfl
    exact other _ _ _ _ _ _ _ rfl

/-- A slot may stand outside brackets only, and only with text in it. -/
theorem Mirrors.of_allowed_slot (m : s.Mirrors seen) {opener : Token}
    (opens : opener.symbol = .startArgument ∨ opener.symbol = .startAssertion)
    (allowed : Allowed seen opener.symbol rest) :
    s.brackets = [] ∧ ∃ t start stop start' stop' later,
      rest = ⟨.text t, start, stop⟩ :: ⟨(slotShape opener).1, start', stop'⟩ :: later := by
  have filled : Outside seen ∧ ∃ t, filling? (slotShape opener).1 rest = some t := by
    obtain symbol | symbol := opens <;> rw [symbol] at allowed
    · obtain ⟨outside, t, filled, -⟩ := allowed
      exact ⟨outside, t, by simpa [slotShape, symbol] using filled⟩
    · obtain ⟨outside, ⟨t, filled, -⟩, -⟩ := allowed
      exact ⟨outside, t, by simpa [slotShape, symbol] using filled⟩
  obtain ⟨outside, t, filled⟩ := filled
  have nested := m.nested
  rw [Outside] at outside
  rw [outside] at nested
  have none := List.map_eq_nil_iff.1 (Option.some.inj nested).symm
  exact ⟨none, t, filling?_eq_some_iff.1 filled⟩

/-- A slot with text in it is read outside brackets exactly if it may stand there. -/
theorem Mirrors.pushSlot_ok_iff (m : s.Mirrors seen) (outside : s.brackets = []) {opener : Token}
    (opens : opener.symbol = .startArgument ∨ opener.symbol = .startAssertion) {start' stop' : Nat} :
    (∃ s', s.pushSlot opener t = .ok s') ↔ Allowed seen opener.symbol
      (⟨.text t, start, stop⟩ :: ⟨(slotShape opener).1, start', stop'⟩ :: rest) := by
  have nested := m.nested
  rw [outside] at nested
  have filled : filling? (slotShape opener).1
      (⟨.text t, start, stop⟩ :: ⟨(slotShape opener).1, start', stop'⟩ :: rest) = some t :=
    filling?_eq_some_iff.2 ⟨_, _, _, _, _, rfl⟩
  simp only [pushSlot_eq_ok_iff]
  obtain symbol | symbol := opens
  · have closer : (slotShape opener).1 = .endArgument := by simp [slotShape, symbol]
    rw [closer] at filled ⊢
    simp [symbol, Allowed, Outside, nested, filled]
  · have closer : (slotShape opener).1 = .endAssertion := by simp [slotShape, symbol]
    have once : s.asserted = false ↔ ∀ earlier ∈ seen, earlier.symbol ≠ .startAssertion := by
      rw [← Bool.not_eq_true, m.asserted]
      simp
    rw [closer] at filled ⊢
    simp [symbol, Allowed, Outside, nested, filled, once]

/-- Outside brackets no stretch is empty. -/
theorem Mirrors.not_leavesEmpty (m : s.Mirrors seen) (outside : s.brackets = []) :
    ¬ LeavesEmpty seen := by
  have nested := m.nested
  have noBar := m.noBar outside
  rw [outside] at nested
  obtain rfl | ⟨earlier, last, rfl⟩ := List.eq_nil_or_concat seen
  · simp [LeavesEmpty, lastSymbol?]
  · rw [List.concat_eq_append] at *
    rw [Token.openAfter_concat, Option.bind_eq_some_iff] at nested
    obtain ⟨opened, -, nested⟩ := nested
    have noOpener : last.symbol ≠ .startOptional ∧ last.symbol ≠ .startGroup := by
      constructor <;> intro symbol <;> simp [nest, symbol] at nested
    simpa [LeavesEmpty, noOpener] using noBar

/-- Reading the tokens after those seen so far comes to something exactly if each of them may stand
where it does. It comes to parts, unless there are no tokens. -/
theorem Mirrors.run_iff (m : s.Mirrors seen) (same : tokens = seen ++ rest)
    (texts : ∀ token ∈ tokens, token.symbol ≠ .text [])
    (apart : ∀ before token after, tokens = before ++ token :: after →
      token.symbol = .choiceSeparator → Outside before → lastSymbol? before ≠ some .endGroup) :
    (∃ parts, s.run rest = .ok parts ∧ (parts = [] ↔ tokens = [])) ↔ Allows seen rest := by
  have runs : ∀ {x : Except Fault Reading} {rest : List Token},
      (∃ parts, (x.bind fun s' => s'.run rest) = .ok parts ∧ (parts = [] ↔ tokens = [])) ↔
        ∃ s', x = .ok s' ∧ ∃ parts, s'.run rest = .ok parts ∧ (parts = [] ↔ tokens = []) := by
    intro x rest
    cases x <;> simp [Except.bind]
  fun_induction Reading.run s rest generalizing seen with
  | case1 s outside =>
    have nested := m.nested
    rw [outside] at nested
    have some : s.parts = [] ↔ tokens = [] := by
      rw [m.empty, same]
      simp [m.not_leavesEmpty outside]
    simpa [Allows, Outside, some] using nested
  | case2 s b outer brackets =>
    have nested := m.nested
    rw [brackets] at nested
    simp [Allows, Outside, nested]
  | case3 s token rest t symbol ih =>
    obtain ⟨_, start, stop⟩ := token
    subst symbol
    have ne : t ≠ [] := by
      rintro rfl
      exact texts ⟨.text [], start, stop⟩ (by simp [same]) rfl
    have next : tokens = seen ++ [⟨.text t, start, stop⟩] ++ rest := by simp [same]
    simpa [Allows, Allowed] using ih (m.pushText ne) next
  | case4 s token rest symbol ih =>
    have next : tokens = seen ++ [token] ++ rest := by simp [same]
    have opened := m.openBracket (.inl ⟨symbol, rfl⟩) false rfl Iff.rfl
    simpa [Allows, Allowed, symbol] using ih opened next
  | case5 s token rest symbol ih =>
    have next : tokens = seen ++ [token] ++ rest := by simp [same]
    have opened := m.openBracket (.inr ⟨symbol, rfl⟩) false rfl Iff.rfl
    simpa [Allows, Allowed, symbol] using ih opened next
  | case6 s token rest symbol ih | case7 s token rest symbol ih =>
    have next : tokens = seen ++ [token] ++ rest := by simp [same]
    have closes : token.symbol = .endOptional ∨ token.symbol = .endGroup := by simp [symbol]
    rw [runs, Allows, ← closeBracket_ok_iff m closes]
    constructor
    · rintro ⟨s', closed, run⟩
      exact ⟨⟨s', closed⟩, (ih s' (m.closeBracket closes closed) next).1 run⟩
    · rintro ⟨⟨s', closed⟩, others⟩
      exact ⟨s', closed, (ih s' (m.closeBracket closes closed) next).2 others⟩
  | case8 s token symbol b outer rest brackets ih =>
    have next : tokens = seen ++ [token] ++ rest := by simp [same]
    have nested := m.nested
    rw [brackets] at nested
    have inside : ¬ Outside seen := by simp [Outside, nested]
    have begun : seen ≠ [] := by
      rintro rfl
      cases nested
    have own : Allowed seen token.symbol rest ↔ s.parts ≠ [] := by
      rw [symbol, Ne, m.empty]
      simp [Allowed, inside, begun]
    rw [Allows, own]
    by_cases empty : s.parts = []
    · have refused : ∀ parts, (s.nextAlternative b outer).run rest ≠ .ok parts := fun parts =>
        run_of_empty ⟨_, List.mem_cons_self, by simp [empty]⟩
      simp [refused, empty]
    · have others := ih (m.nextAlternative brackets empty symbol) next
      simpa [empty] using others
  | case9 s token symbol t start stop rest outside ih =>
    have next : tokens = seen ++ [token, ⟨.text t, start, stop⟩] ++ rest := by simp [same]
    have nested := m.nested
    rw [outside] at nested
    have notGroup := apart seen token _ same symbol nested
    have own : Allowed seen token.symbol (⟨.text t, start, stop⟩ :: rest) ↔
        ∃ s', s.chooseWord token t = .ok s' := by
      rw [chooseWord_ok_iff, m.choosable outside notGroup, symbol]
      simp [Allowed, Outside, nested, OpensWithWord, and_comm]
    have rest_ : Allows (seen ++ [token]) (⟨.text t, start, stop⟩ :: rest) ↔
        Allows (seen ++ [token, ⟨.text t, start, stop⟩]) rest := by
      simp [Allows, Allowed]
    rw [runs, Allows, own, rest_]
    constructor
    · rintro ⟨s', chosen, run⟩
      exact ⟨⟨s', chosen⟩, (ih s' (m.chooseWord outside symbol chosen) next).1 run⟩
    · rintro ⟨⟨s', chosen⟩, others⟩
      exact ⟨s', chosen, (ih s' (m.chooseWord outside symbol chosen) next).2 others⟩
  | case10 s token rest symbol outside other =>
    have nested := m.nested
    rw [outside] at nested
    have refused : ¬ OpensWithWord rest := by
      rintro ⟨t, start, stop, later, e, -⟩
      exact other t start stop later e
    simp [Allows, Allowed, symbol, Outside, nested, refused]
  | case11 s token symbol t start stop rest ih =>
    have next : tokens = seen ++ [token, ⟨.text t, start, stop⟩] ++ rest := by simp [same]
    have own : Allowed seen token.symbol (⟨.text t, start, stop⟩ :: rest) ↔
        ∃ s', s.negateWord token t = .ok s' := by
      rw [negateWord_ok_iff, symbol]
      simp [Allowed, OpensWithWord]
    have rest_ : Allows (seen ++ [token]) (⟨.text t, start, stop⟩ :: rest) ↔
        Allows (seen ++ [token, ⟨.text t, start, stop⟩]) rest := by
      simp [Allows, Allowed]
    rw [runs, Allows, own, rest_]
    constructor
    · rintro ⟨s', negated, run⟩
      exact ⟨⟨s', negated⟩, (ih s' (m.negateWord symbol negated) next).1 run⟩
    · rintro ⟨⟨s', negated⟩, others⟩
      exact ⟨s', negated, (ih s' (m.negateWord symbol negated) next).2 others⟩
  | case12 s token symbol start stop rest ih =>
    have next : tokens = seen ++ [token] ++ [⟨.startGroup, start, stop⟩] ++ rest := by simp [same]
    have passed : openAfter (seen ++ [token]) = openAfter seen :=
      Token.openAfter_of_other (by simp [symbol]) (by simp [symbol]) (by simp [symbol])
        (by simp [symbol])
    have opened : (s.openBracket ⟨.startGroup, start, stop⟩ .bracket true).Mirrors
        (seen ++ [token] ++ [⟨.startGroup, start, stop⟩]) :=
      m.openBracket (.inr ⟨rfl, rfl⟩) true passed (exists_startAssertion_append (by simp [symbol]))
    simpa [Allows, Allowed, symbol] using ih opened next
  | case13 s token rest symbol notText notGroup =>
    have refused : ¬ OpensWithWord rest := by
      rintro ⟨t, start, stop, later, e, -⟩
      exact notText t start stop later e
    have refused' : rest.head?.map Token.symbol ≠ some .startGroup := by
      intro e
      cases rest with
      | nil => cases e
      | cons first later =>
        obtain ⟨_, start, stop⟩ := first
        cases e
        exact notGroup start stop later rfl
    simp [Allows, Allowed, symbol, refused, refused']
  | case14 s token symbol outside t start stop start' stop' rest ih
  | case18 s token symbol outside t start stop start' stop' rest ih =>
    have outside := List.isEmpty_iff.1 outside
    have opens : token.symbol = .startArgument ∨ token.symbol = .startAssertion := by simp [symbol]
    have next : tokens = seen ++ [token, ⟨.text t, start, stop⟩,
        ⟨(slotShape token).1, start', stop'⟩] ++ rest := by simp [same]
    have rest_ : Allows (seen ++ [token])
          (⟨.text t, start, stop⟩ :: ⟨(slotShape token).1, start', stop'⟩ :: rest) ↔
        Allows (seen ++ [token, ⟨.text t, start, stop⟩, ⟨(slotShape token).1, start', stop'⟩])
          rest := by
      have closed : ∃ earlier opener text, seen ++ [token, ⟨.text t, start, stop⟩] =
          earlier ++ [opener, text] ∧ opener.symbol = token.symbol ∧ ∃ t, text.symbol = .text t :=
        ⟨seen, token, ⟨.text t, start, stop⟩, rfl, rfl, t, rfl⟩
      rw [symbol] at closed
      simpa [Allows, Allowed, slotShape, symbol] using fun _ => closed
    rw [runs, Allows, ← m.pushSlot_ok_iff outside opens, rest_]
    constructor
    · rintro ⟨s', pushed, run⟩
      exact ⟨⟨s', pushed⟩, (ih s' (m.pushSlot outside opens rfl pushed) next).1 run⟩
    · rintro ⟨⟨s', pushed⟩, others⟩
      exact ⟨s', pushed, (ih s' (m.pushSlot outside opens rfl pushed) next).2 others⟩
  | case15 s token symbol outside t start stop closer start' stop' rest other
  | case19 s token symbol outside t start stop closer start' stop' rest other =>
    have refused : ∀ later, ¬ Allowed seen token.symbol (⟨.text t, start, stop⟩ ::
        ⟨closer, start', stop'⟩ :: later) := by
      intro later allowed
      obtain ⟨-, _, _, _, _, _, _, e⟩ := m.of_allowed_slot (by simp [symbol]) allowed
      cases e
      exact other rfl
    simp [Allows, refused]
  | case16 s token rest symbol outside other | case20 s token rest symbol outside other =>
    have refused : ¬ Allowed seen token.symbol rest := by
      intro allowed
      obtain ⟨-, _, _, _, _, _, _, e⟩ := m.of_allowed_slot (by simp [symbol]) allowed
      exact other _ _ _ _ _ _ _ e
    simp [Allows, refused]
  | case17 s token rest symbol inside | case21 s token rest symbol inside =>
    have refused : ¬ Allowed seen token.symbol rest := by
      intro allowed
      have outside := (m.of_allowed_slot (by simp [symbol]) allowed).1
      exact inside (List.isEmpty_iff.2 outside)
    simp [Allows, refused]
  | case22 s token rest symbol | case23 s token rest symbol =>
    have refused : ¬ Allowed seen token.symbol rest := by
      rw [symbol]
      rintro ⟨earlier, opener, text, e, opens, t, filled⟩
      exact m.unfilled ⟨earlier, opener, text, t, e, by simp [opens], filled⟩
    simp [Allows, refused]

end Reading

namespace Node

/-- A list of tokens has a tree exactly if there are tokens, they are grammatical and spare
wildcards. -/
theorem ofTokens_ok_iff {tokens : List Token} (texts : ∀ token ∈ tokens, token.symbol ≠ .text [])
    (apart : ∀ before token after, tokens = before ++ token :: after →
      token.symbol = .choiceSeparator → Token.Outside before →
      Token.lastSymbol? before ≠ some .endGroup) :
    (∃ n, ofTokens tokens = .ok n) ↔
      tokens ≠ [] ∧ Token.Grammatical tokens ∧ Token.SparesWildcards tokens := by
  rw [Token.grammatical_and_spares_iff, ← Reading.mirrors_start.run_iff rfl texts apart]
  constructor
  · rintro ⟨n, e⟩
    obtain ⟨parts, run, e⟩ := ok_of_bind e
    split at e
    · cases e
    rename_i some
    have some : parts ≠ [] := by simpa using some
    have ne : tokens ≠ [] := by
      rintro rfl
      obtain rfl : [] = parts := Except.ok.inj run
      exact some rfl
    exact ⟨ne, parts, run, by simp [some, ne]⟩
  · rintro ⟨ne, parts, run, empty⟩
    have some : parts ≠ [] := fun e => ne (empty.1 e)
    refine ⟨.ofParts parts, ?_⟩
    rw [ofTokens, run]
    simp [Except.bind, some]

/-- An expression in which no bar outside brackets comes right after a closing square bracket has a
tree exactly if it has tokens that are grammatical and no bar outside brackets comes after a
wildcard. -/
theorem exists_parse_iff (expression : Text)
    (apart : ∀ tokens, Token.scan expression = .ok tokens → ∀ before token after,
      tokens = before ++ token :: after → token.symbol = .choiceSeparator → Token.Outside before →
      Token.lastSymbol? before ≠ some .endGroup) :
    (∃ n, parse expression = .ok n) ↔ ∃ tokens, Token.scan expression = .ok tokens ∧
      tokens ≠ [] ∧ Token.Grammatical tokens ∧ Token.SparesWildcards tokens := by
  rw [parse]
  cases scanned : Token.scan expression with
  | error fault => simp [Except.bind]
  | ok tokens =>
    have texts := texts_of_tiled (tiled_of_scanFrom scanned)
    have tree := ofTokens_ok_iff texts (apart tokens scanned)
    simpa [Except.bind] using tree

/-- With brackets in each other, a choice in them and one outside, a caret and a slot. -/
theorem grammatical_of_order : ∃ tokens,
    Token.scan "add (a|[b c]) red|green ^bad {n:integer}".toList = .ok tokens ∧ tokens ≠ [] ∧
      Token.Grammatical tokens ∧ Token.SparesWildcards tokens := by
  obtain ⟨n, parsed, -⟩ := exists_ok (p := fun _ => true)
    (x := parse "add (a|[b c]) red|green ^bad {n:integer}".toList) (by decide +kernel)
  refine (exists_parse_iff "add (a|[b c]) red|green ^bad {n:integer}".toList ?_).1 ⟨n, parsed⟩
  obtain ⟨tokens, scanned, same⟩ := exists_ok
    (x := Token.scan "add (a|[b c]) red|green ^bad {n:integer}".toList)
    (p := (· == [⟨.text "add ".toList, 0, 4⟩, ⟨.startOptional, 4, 5⟩, ⟨.text "a".toList, 5, 6⟩,
      ⟨.choiceSeparator, 6, 7⟩, ⟨.startGroup, 7, 8⟩, ⟨.text "b c".toList, 8, 11⟩,
      ⟨.endGroup, 11, 12⟩, ⟨.endOptional, 12, 13⟩, ⟨.text " red".toList, 13, 17⟩,
      ⟨.choiceSeparator, 17, 18⟩, ⟨.text "green ".toList, 18, 24⟩, ⟨.negation, 24, 25⟩,
      ⟨.text "bad ".toList, 25, 29⟩, ⟨.startArgument, 29, 30⟩,
      ⟨.text "n:integer".toList, 30, 39⟩, ⟨.endArgument, 39, 40⟩]))
    (by decide +kernel)
  intro tokens' scanned'
  obtain rfl := Except.ok.inj (scanned.symm.trans scanned')
  rw [eq_of_beq same]
  simp only [Token.forall_splits_cons]
  simp [Token.lastSymbol?]

/-- A star is a word of its own to a bar after it, but no word to choose from. -/
theorem not_parse_of_star : ∃ tokens, Token.scan "a *|b".toList = .ok tokens ∧
    tokens ≠ [] ∧ Token.Grammatical tokens ∧
    (∀ before token after, tokens = before ++ token :: after → token.symbol = .choiceSeparator →
      Token.Outside before → Token.lastSymbol? before ≠ some .endGroup) ∧
    ¬ ∃ n, parse "a *|b".toList = .ok n := by
  have refused : ¬ ∃ n, parse "a *|b".toList = .ok n := by
    rintro ⟨n, parsed⟩
    cases parsed
  have opens : Token.OpensWithWord [⟨.text "b".toList, 4, 5⟩] := ⟨_, _, _, _, rfl, rfl⟩
  have closes : Token.ClosesWithWord [⟨.text "a *".toList, 0, 3⟩] :=
    ⟨[], _, _, _, rfl, rfl, by simp [Token.lastSymbol?]⟩
  refine ⟨[⟨.text "a *".toList, 0, 3⟩, ⟨.choiceSeparator, 3, 4⟩, ⟨.text "b".toList, 4, 5⟩],
    rfl, by simp, ⟨rfl, ?_, ?_, ?_, ?_, ?_, ?_, ?_, ?_⟩, ?_, refused⟩
  case refine_8 =>
    rw [Token.forall_splits_cons, Token.forall_splits_cons, Token.forall_splits_cons]
    exact ⟨by simp, fun _ _ => ⟨closes, opens⟩, by simp, Token.forall_splits_nil⟩
  all_goals
    rw [Token.forall_splits_cons, Token.forall_splits_cons, Token.forall_splits_cons]
    simp [Token.lastSymbol?]

end Node
end StepMatch
