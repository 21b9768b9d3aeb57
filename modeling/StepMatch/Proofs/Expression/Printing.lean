import StepMatch.Proofs.Expression.Blocks
import StepMatch.Proofs.Expression.Grammatical

/-!
# Printing and reading again

The tree of an expression is written with the symbols of the expression, but for square brackets that
only group. So reading what is written gives the tree back, up to the places of its slots, if all
square brackets of the expression count: they hold a choice, or a caret negates them and they hold more
than a word. The text of a slot is written as it is, so it has to be free of structural characters.

The symbols that write the parts so far are kept along the reading, for the outermost scope and for
each open bracket.
-/

namespace StepMatch

open Token (openAfter Outside lastSymbol? nest)

namespace Token

variable {xs ys inside before tokens : List Token} {token opener closer : Token}
  {opened opened' outer : List Symbol}

/-- A bar stands outside all brackets. -/
def HasBar (tokens : List Token) : Prop :=
  ∃ left bar right, tokens = left ++ bar :: right ∧ bar.symbol = .choiceSeparator ∧ Outside left

/-- What the tokens have to be like so that their tree is written with all of them. -/
structure IsPrinted (tokens : List Token) : Prop where
  /-- Square brackets hold a choice, or are negated and hold more than a single word. -/
  groups : ∀ before opener inside closer after,
    tokens = before ++ opener :: (inside ++ closer :: after) → opener.symbol = .startGroup →
    closer.symbol = .endGroup → Outside inside →
    HasBar inside ∨ lastSymbol? before = some .negation ∧
      ∀ t start stop, inside = [⟨.text t, start, stop⟩] → t.any isBlank = true
  /-- There are no structural characters in slots. -/
  slots : ∀ before opener t start stop after,
    tokens = before ++ opener :: ⟨.text t, start, stop⟩ :: after →
    opener.symbol = .startArgument ∨ opener.symbol = .startAssertion →
    ∀ c ∈ t, isStructural c = false

/-- Brackets around those that are open stay open. -/
theorem nest_append (h : nest opened token = some opened') (outer : List Symbol) :
    nest (opened ++ outer) token = some (opened' ++ outer) := by
  obtain ⟨symbol, start, stop⟩ := token
  cases symbol with
  | endOptional | endGroup =>
    obtain _ | ⟨first, opened⟩ := opened
    · cases h
    · cases first <;> cases h
      rfl
  | _ => cases h; rfl

theorem foldlM_nest_append (h : xs.foldlM nest opened = some opened') (outer : List Symbol) :
    xs.foldlM nest (opened ++ outer) = some (opened' ++ outer) := by
  induction xs generalizing opened with
  | nil =>
    cases h
    rfl
  | cons token xs ih =>
    rw [List.foldlM_cons] at h ⊢
    cases next : nest opened token with
    | none =>
      rw [next] at h
      cases h
    | some opened'' =>
      rw [next] at h
      rw [nest_append next]
      exact ih h

theorem openAfter_append (h : openAfter xs = some opened) (ys : List Token) :
    openAfter (xs ++ ys) = ys.foldlM nest opened := by
  rw [openAfter, List.foldlM_append]
  exact congrArg (Option.bind · _) h

theorem Outside.openAfter_append (h : Outside xs) (ys : List Token) :
    openAfter (xs ++ ys) = openAfter ys := Token.openAfter_append h ys

theorem Outside.append (h : Outside xs) (h' : Outside ys) : Outside (xs ++ ys) :=
  (h.openAfter_append ys).trans h'

theorem outside_of_symbols (h : ∀ token ∈ xs, token.symbol ≠ .startOptional ∧
    token.symbol ≠ .startGroup ∧ token.symbol ≠ .endOptional ∧ token.symbol ≠ .endGroup) :
    Outside xs := by
  induction xs with
  | nil => rfl
  | cons token xs ih =>
    obtain ⟨own, later⟩ := List.forall_mem_cons.1 h
    rw [Outside, openAfter, List.foldlM_cons, nest_of_other own.1 own.2.1 own.2.2.1 own.2.2.2]
    exact ih later

/-- What is nested up to a place was nested before. -/
theorem exists_openAfter (h : openAfter (xs ++ ys) = some opened) :
    ∃ opened', openAfter xs = some opened' := by
  rw [openAfter, List.foldlM_append] at h
  cases e : xs.foldlM nest [] with
  | none =>
    rw [e] at h
    cases h
  | some opened' => exact ⟨opened', e⟩

section Brackets

variable {round : Bool}

theorem nest_opener (opens : opener.symbol = .opener round) (outer : List Symbol) :
    nest outer opener = some (.opener round :: outer) := by
  rw [nest.eq_def, opens]
  cases round <;> rfl

theorem nest_closer (closes : closer.symbol = .closer round) (outer : List Symbol) :
    nest (.opener round :: outer) closer = some outer := by
  rw [nest.eq_def, closes]
  cases round <;> rfl

theorem openAfter_cons_opener (opens : opener.symbol = .opener round)
    (h : openAfter xs = some opened) : openAfter (opener :: xs) = some (opened ++ [.opener round]) := by
  rw [openAfter, List.foldlM_cons, nest_opener opens]
  exact foldlM_nest_append h _

/-- Brackets are closed after the bracket that closes them. -/
theorem outside_brackets (opens : opener.symbol = .opener round)
    (closes : closer.symbol = .closer round) (h : Outside inside) :
    Outside (opener :: (inside ++ [closer])) := by
  rw [Outside, ← List.cons_append, openAfter_append (openAfter_cons_opener opens h), List.foldlM_cons]
  exact congrArg (Option.bind · _) (nest_closer closes [])

end Brackets

/-- A bar after brackets that are closed stands outside just where it does without them. -/
theorem HasBar.of_append (h : HasBar (xs ++ ys)) (balanced : Outside xs) : HasBar xs ∨ HasBar ys := by
  obtain ⟨left, bar, right, e, symbol, outside⟩ := h
  obtain ⟨z, rfl, rfl⟩ | ⟨z, rfl, split⟩ := List.append_eq_append_iff.1 e
  · exact .inr ⟨z, bar, right, rfl, symbol, (balanced.openAfter_append z).symm.trans outside⟩
  · obtain _ | ⟨first, z⟩ := z
    · exact .inr ⟨[], bar, right, split.symm, symbol, rfl⟩
    · obtain ⟨rfl, -⟩ := List.cons.inj split
      exact .inl ⟨left, bar, z, rfl, symbol, outside⟩

theorem not_hasBar (h : ∀ token ∈ xs, token.symbol ≠ .choiceSeparator) : ¬ HasBar xs := by
  rintro ⟨left, bar, right, rfl, symbol, -⟩
  exact h bar (by simp) symbol

/-- Bars in brackets do not stand outside. -/
theorem not_hasBar_brackets {round : Bool} (opens : opener.symbol = .opener round)
    (closes : closer.symbol = .closer round) (balanced : Outside inside) :
    ¬ HasBar (opener :: (inside ++ [closer])) := by
  rintro ⟨left, bar, right, e, symbol, outside⟩
  obtain _ | ⟨first, left⟩ := left
  · obtain ⟨rfl, -⟩ := List.cons.inj e
    rw [opens] at symbol
    cases round <;> cases symbol
  · obtain ⟨rfl, rest⟩ := List.cons.inj e
    have stays : ∃ opened, openAfter left = some opened := by
      obtain ⟨z, rfl, split⟩ | ⟨z, rfl, -⟩ := List.append_eq_append_iff.1 rest
      · obtain _ | ⟨next, z⟩ := z
        · exact ⟨[], by rwa [List.append_nil]⟩
        · have last := (List.cons.inj split).2
          simp at last
      · exact exists_openAfter balanced
    obtain ⟨opened, stays⟩ := stays
    rw [Outside, openAfter_cons_opener opens stays] at outside
    simp at outside

/-- No two runs of text touch. -/
def TextsApart (tokens : List Token) : Prop :=
  tokens.IsChain fun token next => ∀ t u, token.symbol = .text t → next.symbol ≠ .text u

theorem TextsApart.cons (h : TextsApart xs) (other : ∀ t, token.symbol ≠ .text t) :
    TextsApart (token :: xs) :=
  List.isChain_cons.2 ⟨fun _ _ t _ e => absurd e (other t), h⟩

theorem TextsApart.joinText (h : TextsApart xs) (start stop : Nat) (piece : Text) :
    TextsApart (joinText start stop piece xs) := by
  rw [Token.joinText.eq_def]
  split
  · obtain ⟨apart, later⟩ := List.isChain_cons.1 h
    exact List.isChain_cons.2 ⟨fun next mem _ u _ => apart next mem _ u rfl, later⟩
  · rename_i other
    refine List.isChain_cons.2 ⟨fun next mem _ u _ e => ?_, h⟩
    obtain _ | ⟨⟨_, start', stop'⟩, later⟩ := xs
    · cases mem
    · cases mem
      cases e
      exact other _ start' stop' later rfl

/-- Literal characters are joined, so runs of text are never cut. -/
theorem textsApart_of_scanFrom {pos : Nat} {t : Text} (h : scanFrom pos t = .ok tokens) :
    TextsApart tokens := by
  fun_induction scanFrom pos t generalizing tokens with
  | case1 pos =>
    cases h
    exact .nil
  | case2 => cases h
  | case3 pos c rest stop =>
    rename_i ih
    obtain ⟨later, scanned, rfl⟩ := ok_of_map h
    exact (ih scanned).joinText _ _ _
  | case4 pos rest ih | case5 pos rest ih =>
    obtain ⟨later, scanned, rfl⟩ := ok_of_map h
    exact (ih scanned).cons (by simp)
  | case6 pos c rest _ _ _ _ stop symbol found =>
    rename_i ih
    obtain ⟨later, scanned, rfl⟩ := ok_of_map h
    refine (ih scanned).cons fun t e => ?_
    rw [symbolOf?.eq_def] at found
    split at found <;> cases found <;> cases e
  | case7 pos c rest _ _ _ _ stop none =>
    rename_i ih
    obtain ⟨later, scanned, rfl⟩ := ok_of_map h
    exact (ih scanned).joinText _ _ _

/-- The tokens end with text. -/
def EndsInText (tokens : List Token) : Prop := ∃ t, lastSymbol? tokens = some (.text t)

/-- The tokens start with text. -/
def StartsWithText (tokens : List Token) : Prop := ∃ t, tokens.head?.map Token.symbol = some (.text t)

theorem TextsApart.split (h : TextsApart (xs ++ ys)) (ends : EndsInText xs) : ¬ StartsWithText ys := by
  rintro ⟨u, e'⟩
  obtain ⟨t, e⟩ := ends
  obtain ⟨token, last, own⟩ := Option.map_eq_some_iff.1 e
  obtain ⟨next, first, own'⟩ := Option.map_eq_some_iff.1 e'
  exact (List.isChain_append.1 h).2.2 token last next first t u own own'

theorem lastSymbol?_append (ne : ys ≠ []) (xs : List Token) :
    lastSymbol? (xs ++ ys) = lastSymbol? ys := by
  rw [lastSymbol?, List.getLast?_append_of_ne_nil _ ne]
  rfl

end Token

namespace Node

open Reading (Interior)

/-- The node can be written with brackets of its own, if it is a choice in square brackets. -/
def HasInterior (n : Node) : Prop := ∀ as, n = .choice .bracket as → ∃ xs finished last, ∃ b : Bracket,
  Interior xs finished last ∧ finished ≠ [] ∧ b.finished = finished ∧ b.delimiter = .bracket ∧
    b.node last.reverse = .ok n

theorem hasInterior_of_ne {n : Node} (h : ∀ as, n ≠ .choice .bracket as) : n.HasInterior :=
  fun as e => absurd e (h as)

/-- There are no choices in a run of text. -/
theorem ne_choice_of_mem_carveFrom {fresh : Bool} {t : Text} {delimiter : Delimiter} {as : List Node} :
    ∀ n ∈ carveFrom fresh t, n ≠ .choice delimiter as :=
  forall_carveFrom (by simp) (by simp) fresh t

theorem hasInterior_of_mem_carve {t : Text} : ∀ n ∈ carve t, n.HasInterior :=
  fun n hn => hasInterior_of_ne fun _ => ne_choice_of_mem_carveFrom n hn

end Node

namespace Reading

open Token (HasBar EndsInText StartsWithText)
open StepMatch.Symbol (opener closer)

variable {tokens inside : List Token} {added last : List Node} {finished : List (List Node)}
  {t : Text} {start stop : Nat}

/-- The tokens add parts that can be written with the same symbols, or with fewer brackets. -/
structure Adds (tokens : List Token) (added : List Node) : Prop where
  ne : tokens ≠ []
  balanced : Outside tokens
  noBar : ¬ HasBar tokens
  caret : lastSymbol? tokens ≠ some .negation
  block : ∃ ys, Block ys added ∧ ys ≠ [] ∧ (Symbol.StartsWithText ys → StartsWithText tokens) ∧
    (Symbol.EndsInText ys → EndsInText tokens)
  own : ∀ n ∈ added, n.HasInterior
  bare : ∀ as, ∀ n ∈ added, n ≠ .choice .bare as
  word : ∀ t, added = [.literal t] → ∃ start stop, tokens = [⟨.text t, start, stop⟩]
  nonempty : added ≠ []

/-- The tokens since the innermost bracket was opened make complete alternatives and parts that can be
written with the same symbols, or with fewer brackets. -/
structure Level (inside : List Token) (finished : List (List Node)) (parts : List Node) : Prop where
  balanced : Outside inside
  caret : lastSymbol? inside ≠ some .negation
  interior : ∃ xs, Interior xs finished parts ∧ (Symbol.EndsInText xs → EndsInText inside)
  own : ∀ n ∈ parts, n.HasInterior
  bar : HasBar inside → finished ≠ []
  word : finished = [] → ∀ t, parts = [.literal t] → ∃ start stop, inside = [⟨.text t, start, stop⟩]
  untouched : finished = [] → parts = [] → inside = []

namespace Level

theorem nil : Level [] [] [] where
  balanced := rfl
  caret := by simp [Token.lastSymbol?]
  interior := ⟨[], .nil, fun ⟨_, e⟩ => by cases e⟩
  own := by simp
  bar h := by simp [HasBar] at h
  word := by simp
  untouched := fun _ _ => rfl

/-- Tokens that add parts. -/
theorem add (h : Level inside finished last) (h' : Adds tokens added)
    (apart : EndsInText inside → ¬ StartsWithText tokens) :
    Level (inside ++ tokens) finished (added.reverse ++ last) where
  balanced := h.balanced.append h'.balanced
  caret := by
    rw [Token.lastSymbol?_append h'.ne]
    exact h'.caret
  interior := by
    obtain ⟨xs, interior, ends⟩ := h.interior
    obtain ⟨ys, block, ne, starts, ends'⟩ := h'.block
    refine ⟨xs ++ ys, interior.append block fun e e' => apart (ends e) (starts e'), fun ⟨t, e⟩ => ?_⟩
    rw [List.getLast?_append_of_ne_nil _ ne] at e
    rw [EndsInText, Token.lastSymbol?_append h'.ne]
    exact ends' ⟨t, e⟩
  own n hn := (List.mem_append.1 hn).elim (fun hn => h'.own n (List.mem_reverse.1 hn)) (h.own n)
  bar e := (e.of_append h.balanced).elim h.bar fun e => absurd e h'.noBar
  word none t e := by
    obtain ⟨n, added, rfl⟩ := List.exists_cons_of_ne_nil h'.nonempty
    have alone : added.reverse = [] ∧ [n] ++ last = [.literal t] := by
      rw [List.reverse_cons, List.append_assoc] at e
      cases front : added.reverse with
      | nil =>
        rw [front] at e
        exact ⟨rfl, e⟩
      | cons m more =>
        rw [front] at e
        simp at e
    obtain ⟨rfl, rfl⟩ := List.cons.inj alone.2
    rw [h.untouched none rfl, List.nil_append]
    exact h'.word t (by rw [List.reverse_eq_nil_iff.1 alone.1])
  untouched _ e := absurd (List.append_eq_nil_iff.1 e).1 (by simpa using h'.nonempty)

/-- A bar. -/
theorem choiceSeparator (h : Level inside finished last) {bar : Token}
    (symbol : bar.symbol = .choiceSeparator) : Level (inside ++ [bar]) (last.reverse :: finished) [] where
  balanced := h.balanced.append (Token.outside_of_symbols (by simp [symbol]))
  caret := by simp [symbol]
  interior := by
    obtain ⟨xs, interior, -⟩ := h.interior
    refine ⟨_, interior.bar, fun ⟨t, e⟩ => ?_⟩
    simp at e
  own := by simp
  bar _ := List.cons_ne_nil _ _
  word e := absurd e (List.cons_ne_nil _ _)
  untouched e := absurd e (List.cons_ne_nil _ _)

end Level

namespace Adds

variable {b : Bracket} {n : Node} {round : Bool} {bracket closing : Token}

theorem text (ne : t ≠ []) : Adds [⟨.text t, start, stop⟩] (Node.carve t) where
  ne := List.cons_ne_nil _ _
  balanced := rfl
  noBar := Token.not_hasBar (by simp)
  caret := by simp
  block := ⟨_, .text ne, List.cons_ne_nil _ _, fun _ => ⟨t, rfl⟩, fun _ => ⟨t, rfl⟩⟩
  own := Node.hasInterior_of_mem_carve
  bare _ := Node.ne_choice_of_mem_carveFrom
  word u e := by
    have written := Node.concatExpression_carve t
    rw [e, Node.concatExpression, Node.toExpression, Node.concatExpression, List.append_nil] at written
    rw [escapeLiteral_injective written]
    exact ⟨start, stop, rfl⟩
  nonempty := Node.carveFrom_ne_nil ne true

theorem negatedWord {caret : Token} (symbol : caret.symbol = .negation) {word rest : Text}
    (first : firstWord? t = some (word, rest)) : Adds [caret, ⟨.text t, start, stop⟩]
      (.negation .word (.literal word) :: Node.carve rest) where
  ne := List.cons_ne_nil _ _
  balanced := Token.outside_of_symbols (by simp [symbol])
  noBar := Token.not_hasBar (by simp [symbol])
  caret := by simp
  block := ⟨_, .negatedWord first, List.cons_ne_nil _ _, (fun ⟨_, e⟩ => by cases e), fun _ => ⟨t, by simp⟩⟩
  own := List.forall_mem_cons.2 ⟨Node.hasInterior_of_ne (by simp), Node.hasInterior_of_mem_carve⟩
  bare _ := List.forall_mem_cons.2 ⟨by simp, Node.ne_choice_of_mem_carveFrom⟩
  word u e := by cases e
  nonempty := List.cons_ne_nil _ _

/-- Brackets add what stands in them as one part, unless they only group. -/
theorem brackets (h : Level inside finished last) (opens : bracket.symbol = opener round)
    (closes : closing.symbol = closer round) (own : b.finished = finished)
    (delimiter : b.delimiter = .ofRound round) (made : b.node last.reverse = .ok n)
    (kept : round = true ∨ finished ≠ []) : Adds (bracket :: (inside ++ [closing])) [n] where
  ne := List.cons_ne_nil _ _
  balanced := Token.outside_brackets opens closes h.balanced
  noBar := Token.not_hasBar_brackets opens closes h.balanced
  caret := by
    rw [← List.cons_append, Token.lastSymbol?_append (List.cons_ne_nil _ _), Token.lastSymbol?_singleton,
      closes]
    cases round <;> simp [closer]
  block := by
    obtain ⟨xs, interior, -⟩ := h.interior
    refine ⟨_, interior.bracket own delimiter made kept, List.cons_ne_nil _ _, ?_, ?_⟩
    · rintro ⟨t, e⟩
      cases round <;> cases e
    · rintro ⟨t, e⟩
      rw [← List.cons_append, List.getLast?_append_of_ne_nil _ (List.cons_ne_nil _ _)] at e
      cases round <;> cases e
  own := by
    refine List.forall_mem_cons.2 ⟨fun as e => ?_, by simp⟩
    obtain ⟨-, -, rfl⟩ | ⟨several, as', rfl⟩ := Bracket.node_shape delimiter made (own.symm ▸ kept)
    · cases e
    · cases round with
      | true => cases e
      | false =>
        obtain ⟨xs, interior, -⟩ := h.interior
        exact ⟨xs, finished, last, b, interior, own ▸ several, own, delimiter, made⟩
  bare as := by
    refine List.forall_mem_cons.2 ⟨?_, by simp⟩
    obtain ⟨-, -, rfl⟩ | ⟨-, as, rfl⟩ := Bracket.node_shape delimiter made (own.symm ▸ kept)
    · simp
    · cases round <;> simp [Delimiter.ofRound]
  word t e := by
    obtain ⟨-, -, rfl⟩ | ⟨-, as, rfl⟩ := Bracket.node_shape delimiter made (own.symm ▸ kept)
    · cases e
    · cases e
  nonempty := List.cons_ne_nil _ _

/-- Square brackets after a caret add a negation, unless they hold a single word. -/
theorem negatedBrackets {caret : Token} (symbol : caret.symbol = .negation)
    (h : Level inside finished last) (opens : bracket.symbol = opener false)
    (closes : closing.symbol = closer false) (own : b.finished = finished)
    (delimiter : b.delimiter = .bracket) (made : b.node last.reverse = .ok n)
    (several : HasBar inside ∨
      ∀ t start stop, inside = [⟨.text t, start, stop⟩] → t.any isBlank = true) :
    Adds (caret :: bracket :: (inside ++ [closing])) [negate n] where
  ne := List.cons_ne_nil _ _
  balanced := by
    have passed : Outside [caret] := Token.outside_of_symbols (by simp [symbol])
    exact passed.append (Token.outside_brackets opens closes h.balanced)
  noBar bar := by
    have passed : Outside [caret] := Token.outside_of_symbols (by simp [symbol])
    obtain bar | bar := HasBar.of_append bar passed
    · exact Token.not_hasBar (by simp [symbol]) bar
    · exact Token.not_hasBar_brackets opens closes h.balanced bar
  caret := by
    have split : caret :: bracket :: (inside ++ [closing]) = (caret :: bracket :: inside) ++ [closing] := rfl
    rw [split, Token.lastSymbol?_append (List.cons_ne_nil _ _), Token.lastSymbol?_singleton, closes]
    simp [closer]
  block := by
    obtain ⟨ys, block⟩ : ∃ ys, Block (.negation :: .startGroup :: (ys ++ [.endGroup])) [negate n] := by
      obtain ⟨xs, interior, -⟩ := h.interior
      by_cases more : finished = []
      · subst more
        have single := Bracket.eq_ofParts delimiter own made
        by_cases choice : ∃ as, last = [.choice .bracket as]
        · -- the choice brings brackets of its own
          obtain ⟨as, rfl⟩ := choice
          obtain ⟨ys, finished, last, b', interior, several, own', delimiter', made'⟩ :=
            h.own _ List.mem_cons_self as rfl
          obtain rfl : n = .choice .bracket as := single
          exact ⟨ys, interior.negatedBracket own' delimiter' made'
            (interior.written_of_several several own' delimiter' made')⟩
        · refine ⟨xs, interior.negatedBracket own delimiter made
            (interior.written_of_single own delimiter made (fun t e => ?_) (not_exists.1 choice))⟩
          obtain ⟨start, stop, e⟩ := h.word rfl t e
          obtain bar | word := several
          · exact absurd rfl (h.bar bar)
          · exact word t start stop e
      · exact ⟨xs, interior.negatedBracket own delimiter made
          (interior.written_of_several more own delimiter made)⟩
    refine ⟨_, block, List.cons_ne_nil _ _, ?_, ?_⟩
    · rintro ⟨_, e⟩
      cases e
    · rintro ⟨t, e⟩
      have split : Symbol.negation :: .startGroup :: (ys ++ [.endGroup]) =
        (.negation :: .startGroup :: ys) ++ [.endGroup] := rfl
      rw [split, List.getLast?_append_of_ne_nil _ (List.cons_ne_nil _ _)] at e
      cases e
  own := List.forall_mem_cons.2 ⟨Node.hasInterior_of_ne (by simp [negate]), by simp⟩
  bare _ := List.forall_mem_cons.2 ⟨by simp [negate], by simp⟩
  word t e := by cases e
  nonempty := List.cons_ne_nil _ _

end Adds

/-- The tokens so far make parts outside all brackets that can be written with the same symbols, or with
fewer brackets. -/
structure Top (seen : List Token) (parts : List Node) (asserted : Bool) : Prop where
  balanced : Outside seen
  bare : ∀ as, .choice .bare as ∈ parts → as ≠ []
  caret : lastSymbol? seen ≠ some .negation
  exterior : ∃ xs, Symbol.Tidy xs ∧ xs.flatMap Symbol.write = Node.concatExpression parts.reverse ∧
    Leads xs Reading.start ⟨parts, [], asserted⟩ ∧ (Symbol.EndsInText xs → EndsInText seen)

namespace Top

variable {seen : List Token} {parts : List Node} {asserted : Bool} {s' : Reading}

theorem nil : Top [] [] false where
  balanced := rfl
  bare := by simp
  caret := by simp [lastSymbol?]
  exterior := ⟨[], .nil, rfl, .nil, fun ⟨_, e⟩ => by cases e⟩

theorem add (h : Top seen parts asserted) (h' : Adds tokens added)
    (apart : EndsInText seen → ¬ StartsWithText tokens) :
    Top (seen ++ tokens) (added.reverse ++ parts) asserted where
  balanced := h.balanced.append h'.balanced
  bare as mem := by
    obtain mem | mem := List.mem_append.1 mem
    · exact absurd rfl (h'.bare as _ (List.mem_reverse.1 mem))
    · exact h.bare as mem
  caret := by
    rw [Token.lastSymbol?_append h'.ne]
    exact h'.caret
  exterior := by
    obtain ⟨xs, tidy, written, leads, ends⟩ := h.exterior
    obtain ⟨ys, block, ne, starts, ends'⟩ := h'.block
    refine ⟨xs ++ ys, tidy.append block.tidy fun e e' => apart (ends e) (starts e'), ?_,
      leads.append (block.leads _ _ _), fun ⟨t, e⟩ => ?_⟩
    · rw [List.flatMap_append, written, block.written, List.reverse_append, List.reverse_reverse,
        Node.concatExpression_append]
    · rw [List.getLast?_append_of_ne_nil _ ne] at e
      rw [EndsInText, Token.lastSymbol?_append h'.ne]
      exact ends' ⟨t, e⟩

/-- What a bar chooses from is written with the bar, and so is the rest of its text. -/
theorem chooseWord_parts (h : Top seen parts asserted) {bar : Token}
    (chosen : Reading.chooseWord ⟨parts, [], asserted⟩ bar t = .ok s') :
    t ≠ [] ∧ s'.brackets = [] ∧ s'.asserted = asserted ∧
      Node.concatExpression s'.parts.reverse =
        Node.concatExpression parts.reverse ++ '|' :: escapeLiteral t ∧
      ∀ as, .choice .bare as ∈ s'.parts → as ≠ [] := by
  rw [Reading.chooseWord.eq_def] at chosen
  simp only at chosen
  split at chosen
  · cases chosen
  · rename_i word rest first
    have ne : t ≠ [] := by
      rintro rfl
      cases first
    have choose {alternatives before : List Node} (ne' : alternatives ≠ [])
        (front : Node.concatExpression before.reverse ++ Node.choiceExpression alternatives =
          Node.concatExpression parts.reverse)
        (bare : ∀ as, .choice .bare as ∈ before → as ≠ [])
        (e : Reading.pushText ⟨.choice .bare (alternatives ++ [.literal word]) :: before, [], asserted⟩
          rest = s') : t ≠ [] ∧ s'.brackets = [] ∧ s'.asserted = asserted ∧
        Node.concatExpression s'.parts.reverse =
          Node.concatExpression parts.reverse ++ '|' :: escapeLiteral t ∧
        ∀ as, .choice .bare as ∈ s'.parts → as ≠ [] := by
      subst e
      refine ⟨ne, rfl, rfl, ?_, fun as mem => ?_⟩
      · rw [Reading.pushText, List.reverse_append, List.reverse_reverse, List.reverse_cons,
          Node.concatExpression_append, Node.concatExpression_append, Node.concatExpression_carve, ← front,
          ← append_of_firstWord? first, escapeLiteral_append]
        simp [Node.concatExpression, Node.toExpression, Delimiter.opening, Delimiter.closing,
          Node.choiceExpression_append ne']
      · obtain mem | mem := List.mem_append.1 mem
        · exact absurd rfl (Node.ne_choice_of_mem_carveFrom _ (List.mem_reverse.1 mem))
        · obtain e | mem := List.mem_cons.1 mem
          · cases e
            simp
          · exact bare as mem
    split at chosen
    · rename_i alternatives before
      refine choose (h.bare alternatives List.mem_cons_self) ?_
        (fun as mem => h.bare as (List.mem_cons_of_mem _ mem)) (Except.ok.inj chosen)
      simp [Node.concatExpression_append, Node.concatExpression, Node.toExpression, Delimiter.opening,
        Delimiter.closing]
    · rename_i l before
      have bare : ∀ as, .choice .bare as ∈ before → as ≠ [] :=
        fun as mem => h.bare as (List.mem_cons_of_mem _ mem)
      split at chosen
      · cases chosen
      · rename_i left last
        refine choose (List.cons_ne_nil _ _) ?_ bare (Except.ok.inj chosen)
        simp [Node.concatExpression_append, Node.concatExpression, Node.toExpression,
          Node.choiceExpression, ← append_of_lastWord? last]
      · rename_i head left _ last
        refine choose (List.cons_ne_nil _ _) ?_ ?_ (Except.ok.inj chosen)
        · simp [Node.concatExpression_append, Node.concatExpression, Node.toExpression,
            Node.choiceExpression, ← append_of_lastWord? last, escapeLiteral_append]
        · simpa using bare
    · cases chosen

/-- A bar takes the word in front of it and the word after it. -/
theorem chooseWord (h : Top seen parts asserted) {bar : Token} (symbol : bar.symbol = .choiceSeparator)
    (place : bar.start = 0) (chosen : Reading.chooseWord ⟨parts, [], asserted⟩ bar t = .ok s') :
    s'.brackets = [] ∧ Top (seen ++ [bar, ⟨.text t, start, stop⟩]) s'.parts s'.asserted := by
  obtain ⟨ne, brackets, same, written', bare⟩ := h.chooseWord_parts chosen
  refine ⟨brackets, h.balanced.append (Token.outside_of_symbols (by simp [symbol])), bare, by simp, ?_⟩
  obtain ⟨xs, tidy, written, leads, -⟩ := h.exterior
  have own : Symbol.Tidy [.choiceSeparator, .text t] :=
    (Symbol.Tidy.singleton (by simp) (by simp) (by simp)).append
      (.singleton (by simpa using ne) (by simp) (by simp)) fun ⟨_, e⟩ => by cases e
  refine ⟨xs ++ [.choiceSeparator, .text t], tidy.append own (fun _ ⟨_, e⟩ => by cases e), ?_,
    leads.append fun later => ?_, fun _ => ⟨t, by simp⟩⟩
  · rw [List.flatMap_append, written, written']
    simp [Symbol.write, Symbol.describe]
  · have chosen' : Reading.chooseWord ⟨parts, [], asserted⟩ (Token.ofSymbol .choiceSeparator) t =
        .ok s' := by
      rw [← chosen, Reading.chooseWord, Reading.chooseWord, place]
      rfl
    obtain ⟨_, _, _⟩ := s'
    obtain rfl := brackets
    exact congrArg (Except.bind · fun s' => run s' later) chosen'

/-- A slot is written with its braces around its text. -/
theorem filled (h : Top seen parts asserted) {opening ending : Symbol} {u : Text} {n : Node}
    {asserted' : Bool} {bracket closing : Token}
    (pair : opening = .startArgument ∧ ending = .endArgument ∨
      opening = .startAssertion ∧ ending = .endAssertion)
    (opens : bracket.symbol = opening) (closes : closing.symbol = ending) (ne : u ≠ [])
    (slot : ∀ as, n ≠ .choice .bare as)
    (written : n.toExpression = opening.describe ++ escapeLiteral u ++ ending.describe)
    (reads : Leads [opening, .text u, ending] ⟨parts, [], asserted⟩ ⟨n :: parts, [], asserted'⟩) :
    Top (seen ++ [bracket, ⟨.text t, start, stop⟩, closing]) (n :: parts) asserted' := by
  obtain ⟨xs, tidy, written', leads, -⟩ := h.exterior
  have own : Symbol.Tidy [opening, .text u, ending] := by
    obtain ⟨rfl, rfl⟩ | ⟨rfl, rfl⟩ := pair <;>
      exact ⟨by simpa using ne.symm, by simp [Symbol.Apart], by simp, by simp⟩
  have passed : Outside [bracket, ⟨.text t, start, stop⟩, closing] := by
    refine Token.outside_of_symbols ?_
    obtain ⟨rfl, rfl⟩ | ⟨rfl, rfl⟩ := pair <;> simp [opens, closes]
  refine ⟨h.balanced.append passed, fun as mem => ?_, ?_, _, tidy.append own ?_, ?_,
    leads.append reads, ?_⟩
  · obtain e | mem := List.mem_cons.1 mem
    · exact absurd e.symm (slot as)
    · exact h.bare as mem
  · obtain ⟨rfl, rfl⟩ | ⟨rfl, rfl⟩ := pair <;> simp [closes]
  · rintro - ⟨u, e⟩
    obtain ⟨rfl, rfl⟩ | ⟨rfl, rfl⟩ := pair <;> cases e
  · rw [List.flatMap_append, written', List.reverse_cons, Node.concatExpression_append,
      Node.concatExpression, written]
    obtain ⟨rfl, rfl⟩ | ⟨rfl, rfl⟩ := pair <;> simp [Symbol.write, Node.concatExpression]
  · rintro ⟨u, e⟩
    rw [List.getLast?_append_of_ne_nil _ (List.cons_ne_nil _ _)] at e
    obtain ⟨rfl, rfl⟩ | ⟨rfl, rfl⟩ := pair <;> cases e

/-- A slot is read as it was, but for blanks at its ends. -/
theorem slot (h : Top seen parts asserted) {bracket closing : Token} (place : bracket.start = 0)
    (opens : bracket.symbol = .startArgument ∨ bracket.symbol = .startAssertion)
    (closes : closing.symbol = (slotShape bracket).1) (plain : ∀ c ∈ t, isStructural c = false)
    (pushed : Reading.pushSlot ⟨parts, [], asserted⟩ bracket t = .ok s') :
    s'.brackets = [] ∧ Top (seen ++ [bracket, ⟨.text t, start, stop⟩, closing]) s'.parts s'.asserted := by
  have literal : escapeLiteral t.trim = t.trim := by
    obtain ⟨left, right, whole, -⟩ := Text.eq_append_trim t
    exact escapeLiteral_of_plain fun c hc => plain c (by rw [whole]; simp [hc])
  obtain ⟨symbol, start', stop'⟩ := bracket
  obtain rfl : start' = 0 := place
  rw [pushSlot.eq_def] at pushed
  obtain rfl | rfl := opens
  · simp only [reduceCtorEq, if_false] at pushed
    split at pushed
    · cases pushed
    · rename_i some
      split at pushed <;> cases pushed
      rename_i named
      refine ⟨rfl, h.filled (.inl ⟨rfl, rfl⟩) rfl closes (u := t.trim) (by simpa using some) (by simp) ?_
        fun later => ?_⟩
      · rw [literal]
        rfl
      · have again : Reading.pushSlot ⟨parts, [], asserted⟩ (Token.ofSymbol .startArgument) t.trim =
            .ok ⟨.argument t.trim 0 :: parts, [], asserted⟩ := by
          rw [pushSlot.eq_def]
          simp [Text.trim_trim, some, named, Token.ofSymbol, push]
        exact congrArg (Except.bind · fun s' => run s' later) again
  · simp only [if_true] at pushed
    split at pushed
    · cases pushed
    · rename_i some
      split at pushed <;> cases pushed
      rename_i once
      refine ⟨rfl, h.filled (.inr ⟨rfl, rfl⟩) rfl closes (u := t.trim) (by simpa using some) (by simp) ?_
        fun later => ?_⟩
      · rw [literal]
        rfl
      · have again : Reading.pushSlot ⟨parts, [], asserted⟩ (Token.ofSymbol .startAssertion) t.trim =
            .ok ⟨.assertion t.trim 0 :: parts, [], true⟩ := by
          rw [pushSlot.eq_def]
          simp [Text.trim_trim, some, once, Token.ofSymbol, push]
        exact congrArg (Except.bind · fun s' => run s' later) again

end Top

/-- The tokens in front of a bracket that belong to it: a caret if the bracket is negated, and only square
brackets are. -/
inductive Carets : Bool → Bool → List Token → Prop where
  | none {round : Bool} : Carets false round []
  | one {caret : Token} (symbol : caret.symbol = .negation) : Carets true false [caret]

/-- What the tokens so far have come to, with what waits around each bracket that is open. -/
inductive Follows : List Token → Reading → Prop where
  | outside {seen : List Token} {parts : List Node} {asserted : Bool} (top : Top seen parts asserted) :
    Follows seen ⟨parts, [], asserted⟩
  | inside {earlier inside carets : List Token} {bracket : Token} {round negated : Bool}
    {finished : List (List Node)} {parts before : List Node} {outer : List Bracket} {asserted : Bool}
    (around : Follows earlier ⟨before, outer, asserted⟩)
    (front : Carets negated round carets)
    (opens : bracket.symbol = opener round) (level : Level inside finished parts) :
    Follows (earlier ++ (carets ++ bracket :: inside))
      ⟨parts, ⟨bracket, .ofRound round, negated, finished, before⟩ :: outer, asserted⟩

namespace Follows

variable {seen : List Token} {s s' : Reading} {token : Token}

theorem caret (h : Follows seen s) : lastSymbol? seen ≠ some .negation := by
  cases h with
  | outside top => exact top.caret
  | @inside earlier inside carets bracket round negated finished parts before outer asserted around front opens
      level =>
    rw [← List.append_assoc, Token.lastSymbol?_append (List.cons_ne_nil _ _)]
    by_cases fresh : inside = []
    · rw [fresh, Token.lastSymbol?_singleton, opens]
      cases round <;> simp [opener]
    · rw [← List.singleton_append, Token.lastSymbol?_append fresh]
      exact level.caret

/-- Text at the end of what stands in the innermost bracket is text at the end. -/
theorem endsInText_append {inside : List Token} (h : EndsInText inside) (before : List Token) :
    EndsInText (before ++ inside) := by
  have ne : inside ≠ [] := by
    rintro rfl
    obtain ⟨t, e⟩ := h
    cases e
  rwa [EndsInText, Token.lastSymbol?_append ne]

/-- Tokens that add parts in the innermost scope. -/
theorem add (h : Follows seen s) (h' : Adds tokens added)
    (apart : EndsInText seen → ¬ StartsWithText tokens) :
    Follows (seen ++ tokens) ⟨added.reverse ++ s.parts, s.brackets, s.asserted⟩ := by
  cases h with
  | outside top => exact .outside (top.add h' apart)
  | @inside earlier inside carets bracket _ _ _ _ _ _ _ around front opens level =>
    have inner := level.add h' fun ends => apart (by
      have whole : earlier ++ (carets ++ bracket :: inside) = (earlier ++ carets ++ [bracket]) ++ inside := by
        simp
      rw [whole]
      exact endsInText_append ends _)
    have whole : earlier ++ (carets ++ bracket :: inside) ++ tokens =
        earlier ++ (carets ++ bracket :: (inside ++ tokens)) := by simp
    rw [whole]
    exact .inside around front opens inner

theorem openBracket (h : Follows seen s) {bracket : Token} {round : Bool}
    (opens : bracket.symbol = opener round) :
    Follows (seen ++ [bracket]) (s.openBracket bracket (.ofRound round) false) :=
  .inside h .none opens .nil

theorem openNegated (h : Follows seen s) {caret bracket : Token} (symbol : caret.symbol = .negation)
    (opens : bracket.symbol = .startGroup) :
    Follows (seen ++ [caret, bracket]) (s.openBracket bracket .bracket true) :=
  .inside h (.one symbol) opens .nil

theorem nextAlternative (h : Follows seen s) {b : Bracket} {outer : List Bracket}
    (brackets : s.brackets = b :: outer) {bar : Token} (symbol : bar.symbol = .choiceSeparator) :
    Follows (seen ++ [bar]) (s.nextAlternative b outer) := by
  cases h with
  | outside top => cases brackets
  | @inside earlier inside carets bracket _ _ _ _ _ _ _ around front opens level =>
    cases brackets
    have whole : earlier ++ (carets ++ bracket :: inside) ++ [bar] =
        earlier ++ (carets ++ bracket :: (inside ++ [bar])) := by simp
    rw [whole]
    exact .inside around front opens (level.choiceSeparator symbol)

/-- A bracket that is closed adds one part in the scope around it. -/
theorem closeBracket (h : Follows seen s) (e : s.closeBracket token = .ok s') {rest : List Token}
    (printed : Token.IsPrinted (seen ++ token :: rest)) : Follows (seen ++ [token]) s' := by
  obtain ⟨b, outer, n, brackets, closes, made, rfl⟩ := closeBracket_eq_ok_iff.1 e
  cases h with
  | outside top => cases brackets
  | @inside earlier inside carets bracket round negated finished parts before outer asserted around front
      opens level =>
    cases brackets
    have closes' : token.symbol = closer round := by
      rw [closes, Bracket.closer]
      cases round <;> rfl
    cases front with
    | none =>
      have kept : round = true ∨ finished ≠ [] := by
        cases round with
        | true => exact .inl rfl
        | false =>
          obtain bar | ⟨negated, -⟩ := printed.groups earlier bracket inside token rest (by simp) opens
            closes' level.balanced
          · exact .inr (level.bar bar)
          · exact absurd negated around.caret
      have added := Adds.brackets level opens closes' rfl rfl made kept
      have own := around.add added (by
        rintro - ⟨t, e⟩
        rw [List.head?_cons, Option.map_some, opens] at e
        cases round <;> cases e)
      have left : (Reading.mk parts (⟨bracket, .ofRound round, false, finished, before⟩ :: outer)
          asserted).afterBracket ⟨bracket, .ofRound round, false, finished, before⟩ outer n =
            ⟨n :: before, outer, asserted⟩ := by
        obtain ⟨-, -, rfl⟩ | ⟨-, as, rfl⟩ := Bracket.node_shape rfl made kept
        · rfl
        · rfl
      rw [left]
      simpa using own
    | @one caret symbol =>
      have several : HasBar inside ∨
          ∀ t start stop, inside = [⟨.text t, start, stop⟩] → t.any isBlank = true := by
        obtain bar | ⟨-, word⟩ := printed.groups (earlier ++ [caret]) bracket inside token rest (by simp)
          opens closes' level.balanced
        · exact .inl bar
        · exact .inr word
      have added := Adds.negatedBrackets symbol level opens closes' rfl rfl made several
      have own := around.add added (by
        rintro - ⟨t, e⟩
        rw [List.head?_cons, Option.map_some, symbol] at e
        cases e)
      have left : (Reading.mk parts (⟨bracket, .ofRound false, true, finished, before⟩ :: outer)
          asserted).afterBracket ⟨bracket, .ofRound false, true, finished, before⟩ outer n =
            ⟨negate n :: before, outer, asserted⟩ := rfl
      rw [left]
      simpa using own

end Follows

/-- A reading to the end comes to parts that can be written with the symbols that have been read, or
with fewer brackets. -/
theorem Follows.run {seen rest : List Token} {s : Reading} {parts : List Node} (h : Follows seen s)
    (printed : Token.IsPrinted (seen ++ rest)) (apart : Token.TextsApart (seen ++ rest))
    (texts : ∀ token ∈ rest, token.symbol ≠ .text []) (places : ∀ token ∈ rest, token.start = 0)
    (e : s.run rest = .ok parts) : ∃ asserted, Top (seen ++ rest) parts.reverse asserted := by
  fun_induction Reading.run s rest generalizing seen with
  | case1 s outside =>
    cases e
    rw [List.append_nil]
    cases h with
    | @outside _ parts asserted top => exact ⟨asserted, by rwa [List.reverse_reverse]⟩
    | inside => cases outside
  | case3 s token rest t symbol ih =>
    obtain ⟨own, later⟩ := List.forall_mem_cons.1 texts
    obtain ⟨_, start, stop⟩ := token
    obtain rfl := symbol
    have ne : t ≠ [] := fun none => own (none ▸ rfl)
    have added : Adds [⟨.text t, start, stop⟩] (Node.carve t) := .text ne
    have next := h.add added apart.split
    rw [List.append_cons] at printed apart ⊢
    exact ih next printed apart later (List.forall_mem_cons.1 places).2 e
  | case4 s token rest symbol ih =>
    rw [List.append_cons] at printed apart ⊢
    have opens : token.symbol = opener true := symbol
    exact ih (h.openBracket opens) printed apart (List.forall_mem_cons.1 texts).2
      (List.forall_mem_cons.1 places).2 e
  | case5 s token rest symbol ih =>
    rw [List.append_cons] at printed apart ⊢
    have opens : token.symbol = opener false := symbol
    exact ih (h.openBracket opens) printed apart (List.forall_mem_cons.1 texts).2
      (List.forall_mem_cons.1 places).2 e
  | case6 s token rest symbol ih | case7 s token rest symbol ih =>
    obtain ⟨s', closed, e⟩ := ok_of_bind e
    have next := h.closeBracket closed printed
    rw [List.append_cons] at printed apart ⊢
    exact ih s' next printed apart (List.forall_mem_cons.1 texts).2 (List.forall_mem_cons.1 places).2 e
  | case8 s token symbol b outer rest brackets ih =>
    rw [List.append_cons] at printed apart ⊢
    exact ih (h.nextAlternative brackets symbol) printed apart (List.forall_mem_cons.1 texts).2
      (List.forall_mem_cons.1 places).2 e
  | case9 s token symbol t start stop rest outside ih =>
    obtain ⟨s', chosen, e⟩ := ok_of_bind e
    have next : Follows (seen ++ [token, ⟨.text t, start, stop⟩]) s' := by
      cases h with
      | outside top =>
        obtain ⟨brackets, top'⟩ := top.chooseWord symbol (List.forall_mem_cons.1 places).1 chosen
        obtain ⟨_, _, _⟩ := s'
        obtain rfl := brackets
        exact .outside top'
      | inside => cases outside
    have whole : seen ++ token :: ⟨.text t, start, stop⟩ :: rest =
        seen ++ [token, ⟨.text t, start, stop⟩] ++ rest := by simp
    rw [whole] at printed apart ⊢
    exact ih s' next printed apart (fun x hx => texts x (by simp [hx])) (fun x hx => places x (by simp [hx]))
      e
  | case11 s token symbol t start stop rest ih =>
    obtain ⟨s', negated, e⟩ := ok_of_bind e
    have next : Follows (seen ++ [token, ⟨.text t, start, stop⟩]) s' := by
      rw [Reading.negateWord.eq_def] at negated
      split at negated
      · cases negated
      · rename_i word later first
        cases negated
        have added : Adds [token, ⟨.text t, start, stop⟩] (.negation .word (.literal word) :: Node.carve later) :=
          .negatedWord symbol first
        simpa [push, pushText] using h.add added apart.split
    have whole : seen ++ token :: ⟨.text t, start, stop⟩ :: rest =
        seen ++ [token, ⟨.text t, start, stop⟩] ++ rest := by simp
    rw [whole] at printed apart ⊢
    exact ih s' next printed apart (fun x hx => texts x (by simp [hx])) (fun x hx => places x (by simp [hx]))
      e
  | case12 s token symbol start stop rest ih =>
    have whole : seen ++ token :: ⟨.startGroup, start, stop⟩ :: rest =
        seen ++ [token, ⟨.startGroup, start, stop⟩] ++ rest := by simp
    rw [whole] at printed apart ⊢
    exact ih (h.openNegated symbol rfl) printed apart (fun x hx => texts x (by simp [hx]))
      (fun x hx => places x (by simp [hx])) e
  | case14 s token symbol outside t start stop start' stop' rest ih
  | case18 s token symbol outside t start stop start' stop' rest ih =>
    obtain ⟨s', pushed, e⟩ := ok_of_bind e
    have plain := printed.slots seen token t start stop _ rfl (by simp [symbol])
    have next : Follows (seen ++ [token, ⟨.text t, start, stop⟩,
        ⟨(slotShape token).1, start', stop'⟩]) s' := by
      cases h with
      | outside top =>
        have closes : (Token.mk (slotShape token).1 start' stop').symbol = (slotShape token).1 := rfl
        obtain ⟨brackets, top'⟩ := top.slot (List.forall_mem_cons.1 places).1 (by simp [symbol]) closes
          plain pushed
        obtain ⟨_, _, _⟩ := s'
        obtain rfl := brackets
        exact .outside top'
      | inside => cases outside
    have whole : seen ++ token :: ⟨.text t, start, stop⟩ :: ⟨(slotShape token).1, start', stop'⟩ :: rest =
        seen ++ [token, ⟨.text t, start, stop⟩, ⟨(slotShape token).1, start', stop'⟩] ++ rest := by simp
    rw [whole] at printed apart ⊢
    exact ih s' next printed apart (fun x hx => texts x (by simp [hx])) (fun x hx => places x (by simp [hx]))
      e
  | _ => cases e

end Reading

namespace Token

theorem openAfter_unplaced (tokens : List Token) :
    openAfter (tokens.map Token.unplaced) = openAfter tokens := by
  rw [openAfter, List.foldlM_map]
  rfl

theorem lastSymbol?_unplaced (tokens : List Token) :
    lastSymbol? (tokens.map Token.unplaced) = lastSymbol? tokens := by
  rw [lastSymbol?, List.getLast?_map, Option.map_map]
  rfl

theorem HasBar.unplaced {tokens : List Token} (h : HasBar tokens) :
    HasBar (tokens.map Token.unplaced) := by
  obtain ⟨left, bar, right, rfl, symbol, outside⟩ := h
  exact ⟨left.map Token.unplaced, bar.unplaced, right.map Token.unplaced, by simp, symbol,
    (openAfter_unplaced left).trans outside⟩

theorem IsPrinted.unplaced {tokens : List Token} (h : IsPrinted tokens) :
    IsPrinted (tokens.map Token.unplaced) where
  groups before opener inside closer after e opens closes balanced := by
    obtain ⟨before, rest, rfl, rfl, opened⟩ := List.map_eq_append_iff.1 e
    obtain ⟨opener, rest, rfl, rfl, filled⟩ := List.map_eq_cons_iff.1 opened
    obtain ⟨inside, rest, rfl, rfl, closed⟩ := List.map_eq_append_iff.1 filled
    obtain ⟨closer, after, rfl, rfl, rfl⟩ := List.map_eq_cons_iff.1 closed
    rw [Outside, openAfter_unplaced] at balanced
    rw [lastSymbol?_unplaced]
    obtain bar | ⟨negated, word⟩ := h.groups before opener inside closer after rfl opens closes balanced
    · exact .inl bar.unplaced
    · refine .inr ⟨negated, fun t start stop e => ?_⟩
      obtain ⟨start, stop, rest, rfl, none⟩ := exists_of_map_unplaced e
      rw [List.map_eq_nil_iff.1 none] at word
      exact word t start stop rfl
  slots before opener t start stop after e opens := by
    obtain ⟨before, rest, rfl, rfl, opened⟩ := List.map_eq_append_iff.1 e
    obtain ⟨opener, rest, rfl, rfl, filled⟩ := List.map_eq_cons_iff.1 opened
    obtain ⟨start, stop, rest, rfl, -⟩ := exists_of_map_unplaced filled
    exact h.slots before opener t start stop rest rfl opens

theorem TextsApart.unplaced {tokens : List Token} (h : TextsApart tokens) :
    TextsApart (tokens.map Token.unplaced) := List.isChain_map _ |>.2 h

end Token

namespace Node

/-- What an expression is printed as gives its tree back, up to the places of slots, if all square
brackets of the expression count and there are no structural characters in slots. -/
theorem exists_parse_toExpression {expression : Text} {n : Node} (parsed : parse expression = .ok n)
    (printed : ∀ tokens, Token.scan expression = .ok tokens → Token.IsPrinted tokens) :
    ∃ n', parse n.toExpression = .ok n' ∧ n'.unplaced = n.unplaced := by
  obtain ⟨tokens, scanned, read⟩ := ok_of_bind parsed
  obtain ⟨parts, run, made⟩ := ok_of_bind read
  split at made
  · cases made
  · rename_i some
    cases made
    have texts := texts_of_tiled (tiled_of_scanFrom scanned)
    have start : Reading.Follows [] .start := .outside .nil
    obtain ⟨asserted, top⟩ := start.run
      (printed tokens scanned).unplaced (Token.textsApart_of_scanFrom scanned).unplaced
      (by simpa using texts) (by simp [Token.unplaced]) (Reading.run_unplaced_of_ok run)
    obtain ⟨xs, tidy, written, leads, -⟩ := top.exterior
    have same : (ofParts parts).toExpression = xs.flatMap Symbol.write := by
      rw [toExpression_ofParts, written, List.reverse_reverse, ← concatExpression_unplaced,
        unplacedEach_eq_map]
    -- what is printed is scanned as the symbols that lead to the parts
    obtain ⟨tokens', scanned', symbols⟩ := Token.exists_scanFrom_write tidy.texts tidy.apart 0
    have places : tokens'.map Token.unplaced = xs.map Token.ofSymbol := by
      rw [← symbols, List.map_map]
      rfl
    have ends := leads []
    rw [List.append_nil, ← places] at ends
    obtain ⟨parts', run', parts_eq⟩ := Reading.exists_run_of_unplaced (s := .start)
      (ends.trans (congrArg Except.ok (List.reverse_reverse _)))
    have ne : parts'.isEmpty = false := by
      cases parts' with
      | nil => simp [List.map_eq_nil_iff.1 parts_eq.symm] at some
      | cons n ns => rfl
    refine ⟨ofParts parts', ?_, ?_⟩
    · have scanned'' : Token.scan (xs.flatMap Symbol.write) = .ok tokens' := scanned'
      rw [same, parse, scanned'']
      dsimp only [Except.bind]
      rw [ofTokens, run']
      dsimp only [Except.bind]
      rw [ne]
      rfl
    · rw [unplaced_ofParts, unplaced_ofParts, parts_eq]

/-- A star and a bracket behind backslashes, a negated phrase, a choice in a choice and a slot with a
blank in it. -/
theorem exists_parse_toExpression_of_slot : ∃ n n',
    parse "\\*\\[ ^[a b] (c|[d|e]) {x: word }".toList = .ok n ∧
      (∀ tokens, Token.scan "\\*\\[ ^[a b] (c|[d|e]) {x: word }".toList = .ok tokens →
        Token.IsPrinted tokens) ∧
      parse n.toExpression = .ok n' ∧ n'.unplaced = n.unplaced := by
  obtain ⟨n, parsed, -⟩ := exists_ok (p := fun _ => true)
    (x := parse "\\*\\[ ^[a b] (c|[d|e]) {x: word }".toList) (by decide +kernel)
  have printed : ∀ tokens, Token.scan "\\*\\[ ^[a b] (c|[d|e]) {x: word }".toList = .ok tokens →
      Token.IsPrinted tokens := by
    obtain ⟨tokens, scanned, same⟩ := exists_ok
      (x := Token.scan "\\*\\[ ^[a b] (c|[d|e]) {x: word }".toList)
      (p := (· == [⟨.text "\\*[ ".toList, 0, 5⟩, ⟨.negation, 5, 6⟩, ⟨.startGroup, 6, 7⟩,
        ⟨.text "a b".toList, 7, 10⟩, ⟨.endGroup, 10, 11⟩, ⟨.text " ".toList, 11, 12⟩,
        ⟨.startOptional, 12, 13⟩, ⟨.text "c".toList, 13, 14⟩, ⟨.choiceSeparator, 14, 15⟩,
        ⟨.startGroup, 15, 16⟩, ⟨.text "d".toList, 16, 17⟩, ⟨.choiceSeparator, 17, 18⟩,
        ⟨.text "e".toList, 18, 19⟩, ⟨.endGroup, 19, 20⟩, ⟨.endOptional, 20, 21⟩,
        ⟨.text " ".toList, 21, 22⟩, ⟨.startArgument, 22, 23⟩, ⟨.text "x: word ".toList, 23, 31⟩,
        ⟨.endArgument, 31, 32⟩]))
      (by decide +kernel)
    intro tokens' scanned'
    obtain rfl := Except.ok.inj (scanned.symm.trans scanned')
    rw [eq_of_beq same]
    constructor
    · suffices h : ∀ before (opener : Token) rest, _ = before ++ opener :: rest →
          opener.symbol = .startGroup → ∀ inside (closer : Token) after,
          rest = inside ++ closer :: after → closer.symbol = .endGroup → Outside inside →
          Token.HasBar inside ∨ lastSymbol? before = some .negation ∧
            ∀ t start stop, inside = [⟨.text t, start, stop⟩] → t.any isBlank = true from
        fun before opener inside closer after e opens closes balanced =>
          h before opener _ e opens inside closer after rfl closes balanced
      simp only [Token.forall_splits_cons]
      have blank : isBlank ' ' = true := rfl
      have bar : Token.HasBar [⟨.text "d".toList, 16, 17⟩, ⟨.choiceSeparator, 17, 18⟩,
        ⟨.text "e".toList, 18, 19⟩] := ⟨[⟨.text "d".toList, 16, 17⟩], _, _, rfl, rfl, rfl⟩
      simpa [blank] using fun _ => bar
    · suffices h : ∀ before (opener : Token) rest, _ = before ++ opener :: rest →
          opener.symbol = .startArgument ∨ opener.symbol = .startAssertion → ∀ t start stop after,
          rest = ⟨.text t, start, stop⟩ :: after → ∀ c ∈ t, isStructural c = false from
        fun before opener t start stop after e opens => h before opener _ e opens t start stop after rfl
      have filled : ∀ (t : Text) (start stop : Nat) (after : List Token), "x: word ".toList = t →
          23 = start → 31 = stop → [⟨.endArgument, 31, 32⟩] = after → ∀ c ∈ t, isStructural c = false := by
        rintro t start stop after rfl - - -
        have plain : ("x: word ".toList.all fun c => !isStructural c) = true := by decide
        exact fun c hc => by simpa using List.all_eq_true.1 plain c hc
      simp only [Token.forall_splits_cons]
      simpa using filled
  obtain ⟨n', again, same⟩ := exists_parse_toExpression parsed printed
  exact ⟨n, n', parsed, printed, again, same⟩

end Node

end StepMatch
