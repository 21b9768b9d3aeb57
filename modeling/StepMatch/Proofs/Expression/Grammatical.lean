import StepMatch.Proofs.Expression.Tiling

/-!
# Which expressions have a tree

Reading an expression is a matter of its tokens alone: brackets are nested, no stretch between them is
empty, slots are filled and stand outside brackets, and a caret or a bar outside brackets touches the
words that it is about. What the tokens so far are like is all that the reading has to know, and all
that it keeps.
-/

namespace StepMatch

/-- Whether the text closes with a star that is a word of its own. `fresh` says that a word may start
where the text does. -/
def Text.endsInStar (fresh : Bool) (t : Text) : Bool :=
  match t.reverse with
  | '*' :: before => (before.head?.map isBlank).getD fresh
  | _ => false

namespace Token

/-- The brackets that are open after one more token, innermost first. There are none if the token
closes a bracket other than the innermost one. -/
def nest (opened : List Symbol) (token : Token) : Option (List Symbol) :=
  match token.symbol, opened with
  | .startOptional, _ => some (.startOptional :: opened)
  | .startGroup, _ => some (.startGroup :: opened)
  | .endOptional, .startOptional :: outer => some outer
  | .endGroup, .startGroup :: outer => some outer
  | .endOptional, _ | .endGroup, _ => none
  | _, _ => some opened

/-- The brackets that are open after the tokens, if those before are closed in order. -/
def openAfter (tokens : List Token) : Option (List Symbol) := tokens.foldlM nest []

/-- The tokens leave no bracket open. -/
def Outside (tokens : List Token) : Prop := openAfter tokens = some []

/-- The symbol of the last token. -/
def lastSymbol? (tokens : List Token) : Option Symbol := tokens.getLast?.map Token.symbol

/-- The tokens open with text that opens with a word. -/
def OpensWithWord (tokens : List Token) : Prop :=
  ∃ t start stop later, tokens = ⟨.text t, start, stop⟩ :: later ∧ t.head?.any isInk = true

/-- The tokens close with text that closes with a word, and not all of it is what a caret negates. -/
def ClosesWithWord (tokens : List Token) : Prop :=
  ∃ earlier t start stop, tokens = earlier ++ [⟨.text t, start, stop⟩] ∧
    t.getLast?.any isInk = true ∧ (lastSymbol? earlier = some .negation → t.any isBlank = true)

/-- The tokens close with text that closes with a wildcard. A star right after a bar is none. -/
def ClosesWithWildcard (tokens : List Token) : Prop :=
  ∃ earlier t start stop, tokens = earlier ++ [⟨.text t, start, stop⟩] ∧
    Text.endsInStar true t = true ∧
    ¬ (t = ['*'] ∧ lastSymbol? earlier = some .choiceSeparator)

/-- The text that the tokens open with, if the symbol comes after it. -/
def filling? (closer : Symbol) : List Token → Option Text
  | ⟨.text t, _, _⟩ :: ⟨symbol, _, _⟩ :: _ => if symbol = closer then some t else none
  | _ => none

/-- What stands in an argument slot: text, and around its first colon, if it has one, more text. -/
def NamesArgument (t : Text) : Prop :=
  t.trim ≠ [] ∧ ∀ name typeName, t.splitAtFirst (· == ':') = some (name, typeName) →
    name.trim ≠ [] ∧ typeName.trim ≠ []

/-- The grammar of tokens: brackets are nested and none of their stretches is empty, slots are filled
and stand outside brackets, and there is a word wherever a caret or a bar outside brackets is about
one. -/
structure Grammatical (tokens : List Token) : Prop where
  nested : Outside tokens
  argument : ∀ before token after, tokens = before ++ token :: after → token.symbol = .startArgument →
    Outside before ∧ ∃ t, filling? .endArgument after = some t ∧ NamesArgument t
  assertion : ∀ before token after, tokens = before ++ token :: after →
    token.symbol = .startAssertion → Outside before ∧ ∃ t, filling? .endAssertion after = some t ∧
      t.trim ≠ []
  endArgument : ∀ before token after, tokens = before ++ token :: after → token.symbol = .endArgument →
    ∃ earlier opener text, before = earlier ++ [opener, text] ∧ opener.symbol = .startArgument ∧
      ∃ t, text.symbol = .text t
  endAssertion : ∀ before token after, tokens = before ++ token :: after →
    token.symbol = .endAssertion → ∃ earlier opener text, before = earlier ++ [opener, text] ∧
      opener.symbol = .startAssertion ∧ ∃ t, text.symbol = .text t
  once : ∀ before token after, tokens = before ++ token :: after →
    token.symbol = .startAssertion → ∀ earlier ∈ before, earlier.symbol ≠ .startAssertion
  stretches : ∀ before token after, tokens = before ++ token :: after →
    token.symbol = .startOptional ∨ token.symbol = .startGroup ∨
      token.symbol = .choiceSeparator ∧ ¬ Outside before →
    ∀ next ∈ after.head?, next.symbol ≠ .endOptional ∧ next.symbol ≠ .endGroup ∧
      next.symbol ≠ .choiceSeparator
  carets : ∀ before token after, tokens = before ++ token :: after → token.symbol = .negation →
    OpensWithWord after ∨ after.head?.map Token.symbol = some .startGroup
  bars : ∀ before token after, tokens = before ++ token :: after →
    token.symbol = .choiceSeparator → Outside before → ClosesWithWord before ∧ OpensWithWord after

/-- No bar outside brackets comes after a wildcard. -/
def SparesWildcards (tokens : List Token) : Prop :=
  ∀ before token after, tokens = before ++ token :: after → token.symbol = .choiceSeparator →
    Outside before → ¬ ClosesWithWildcard before

end Token

theorem Text.endsInStar_cons {t : Text} (ne : t ≠ []) (fresh : Bool) (c : Char) :
    Text.endsInStar fresh (c :: t) = Text.endsInStar (isBlank c) t := by
  rw [endsInStar, endsInStar, List.reverse_cons]
  cases h : t.reverse with
  | nil => simp at h; exact absurd h ne
  | cons d r =>
    rw [List.cons_append]
    split
    · rename_i e
      cases e
      cases r <;> rfl
    · rename_i other
      split
      · rename_i e
        cases e
        exact absurd rfl (other _)
      · rfl

namespace Node

/-- Whether a bar may come after the node: a word that it closes with is then one to choose. -/
def isChoosable : Node → Bool
  | .choice .bare _ => true
  | .literal t => t.getLast?.any isInk
  | _ => false

theorem isChoosable_consLiteral {ns : List Node} (ne : ns ≠ []) (inner : ∀ n ∈ ns, n.Inner)
    (c : Char) : (consLiteral c ns).getLast?.any isChoosable = ns.getLast?.any isChoosable := by
  rw [consLiteral.eq_def]
  split
  · rename_i t ns
    cases ns with
    | nil =>
      cases inner _ List.mem_cons_self with
      | literal ne => simp [isChoosable, List.getLast?_cons, List.getLast?_eq_some_getLast ne]
    | cons m ns => simp [List.getLast?_cons]
  · rw [List.getLast?_cons, List.getLast?_eq_some_getLast ne]
    rfl

theorem carveFrom_ne_nil {t : Text} (ne : t ≠ []) (fresh : Bool) : carveFrom fresh t ≠ [] := by
  obtain ⟨c, t, rfl⟩ := List.exists_cons_of_ne_nil ne
  rw [carveFrom]
  split
  · exact List.cons_ne_nil _ _
  · rw [consLiteral.eq_def]
    split <;> exact List.cons_ne_nil _ _

/-- What text closes with can be chosen if it closes with ink and not with a wildcard. -/
theorem isChoosable_carveFrom {t : Text} (ne : t ≠ []) (fresh : Bool) :
    (carveFrom fresh t).getLast?.any isChoosable =
      (t.getLast?.any isInk && !Text.endsInStar fresh t) := by
  induction t generalizing fresh with
  | nil => exact absurd rfl ne
  | cons c t ih =>
    obtain rfl | more := eq_or_ne t []
    · by_cases star : c = '*'
      · subst star
        cases fresh <;> rfl
      · have none : Text.endsInStar fresh [c] = false := by
          simp only [Text.endsInStar, List.reverse_singleton]
          split
          · rename_i e
            exact absurd (List.cons.inj e).1 star
          · rfl
        simp [carveFrom, star, none, consLiteral, isChoosable]
    · have last : (c :: t).getLast?.any isInk = t.getLast?.any isInk := by
        rw [List.getLast?_cons, List.getLast?_eq_some_getLast more]
        rfl
      have parts := carveFrom_ne_nil more
      rw [Text.endsInStar_cons more, last, carveFrom]
      split
      · rename_i star
        simp only [Bool.and_eq_true, beq_iff_eq] at star
        obtain ⟨⟨rfl, -⟩, -⟩ := star
        rw [List.getLast?_cons, List.getLast?_eq_some_getLast (parts false)]
        have own := ih more false
        rw [List.getLast?_eq_some_getLast (parts false)] at own
        exact own
      · rw [isChoosable_consLiteral (parts _) (inner_carveFrom _ t)]
        exact ih more _

end Node

namespace Token

variable {seen before after rest tokens : List Token} {token : Token} {t : Text} {start stop : Nat}

/-- What holds of each token with those before and after it. -/
theorem forall_splits_cons {P : List Token → Token → List Token → Prop} :
    (∀ before token' after, token :: rest = before ++ token' :: after → P before token' after) ↔
      P [] token rest ∧
        ∀ before token' after, rest = before ++ token' :: after → P (token :: before) token' after := by
  constructor
  · intro each
    exact ⟨each [] token rest rfl, fun before token' after e =>
      each (token :: before) token' after (by rw [e]; rfl)⟩
  · rintro ⟨own, others⟩ before token' after e
    cases before with
    | nil =>
      cases e
      exact own
    | cons first before =>
      cases e
      exact others before token' after rfl

theorem forall_splits_nil {P : List Token → Token → List Token → Prop} :
    ∀ before token after, [] = before ++ token :: after → P before token after := by
  simp

theorem openAfter_concat (seen : List Token) (token : Token) :
    openAfter (seen ++ [token]) = (openAfter seen).bind fun opened => nest opened token := by
  simp only [openAfter, List.foldlM_append, List.foldlM_cons, List.foldlM_nil]
  cases seen.foldlM nest [] with
  | none => rfl
  | some opened => cases h : nest opened token <;> simp [h]

@[simp] theorem lastSymbol?_append_cons (seen : List Token) (token : Token) (more : List Token) :
    lastSymbol? (seen ++ token :: more) = lastSymbol? (token :: more) := by
  rw [lastSymbol?, List.getLast?_append_of_ne_nil _ (List.cons_ne_nil token more), lastSymbol?]

@[simp] theorem lastSymbol?_singleton (token : Token) :
    lastSymbol? [token] = some token.symbol := rfl

@[simp] theorem lastSymbol?_cons_cons (token next : Token) (more : List Token) :
    lastSymbol? (token :: next :: more) = lastSymbol? (next :: more) := by
  simp [lastSymbol?]

/-- What may stand inside the brackets that are open leaves them as they are. -/
theorem nest_of_other {opened : List Symbol} (notOptional : token.symbol ≠ .startOptional)
    (notGroup : token.symbol ≠ .startGroup) (notEndOptional : token.symbol ≠ .endOptional)
    (notEndGroup : token.symbol ≠ .endGroup) : nest opened token = some opened := by
  rw [nest.eq_def]
  split <;> first | contradiction | rfl

theorem openAfter_of_other (notOptional : token.symbol ≠ .startOptional)
    (notGroup : token.symbol ≠ .startGroup) (notEndOptional : token.symbol ≠ .endOptional)
    (notEndGroup : token.symbol ≠ .endGroup) :
    openAfter (seen ++ [token]) = openAfter seen := by
  rw [openAfter_concat]
  cases openAfter seen with
  | none => rfl
  | some opened => exact nest_of_other notOptional notGroup notEndOptional notEndGroup

/-- The tokens close with a word that a bar may choose from. -/
def OffersWord (tokens : List Token) : Prop := ClosesWithWord tokens ∧ ¬ ClosesWithWildcard tokens

theorem offersWord_text_iff : OffersWord (seen ++ [⟨.text t, start, stop⟩]) ↔
    t.getLast?.any isInk = true ∧ (lastSymbol? seen = some .negation → t.any isBlank = true) ∧
      (Text.endsInStar true t = true → t = ['*'] ∧ lastSymbol? seen = some .choiceSeparator) := by
  constructor
  · rintro ⟨⟨earlier, t', start', stop', same, ink, negated⟩, noWildcard⟩
    obtain ⟨rfl, e⟩ := List.append_inj' same rfl
    cases e
    refine ⟨ink, negated, fun star => ?_⟩
    by_contra other
    exact noWildcard ⟨_, _, _, _, rfl, star, other⟩
  · rintro ⟨ink, negated, star⟩
    refine ⟨⟨seen, t, start, stop, rfl, ink, negated⟩, ?_⟩
    rintro ⟨earlier, t', start', stop', same, star', other⟩
    obtain ⟨rfl, e⟩ := List.append_inj' same rfl
    cases e
    exact other (star star')

theorem not_offersWord (other : ∀ t, token.symbol ≠ .text t) :
    ¬ OffersWord (seen ++ [token]) := by
  rintro ⟨⟨earlier, t, start, stop, same, -⟩, -⟩
  obtain ⟨-, e⟩ := List.append_inj' same rfl
  cases e
  exact other t rfl

/-- The last stretch of the brackets that are open is empty so far. -/
def LeavesEmpty (before : List Token) : Prop :=
  lastSymbol? before = some .startOptional ∨ lastSymbol? before = some .startGroup ∨
    lastSymbol? before = some .choiceSeparator

/-- The symbol may stand between the tokens. -/
def Allowed (before : List Token) (symbol : Symbol) (after : List Token) : Prop :=
  match symbol with
  | .text _ | .startOptional | .startGroup => True
  | .endOptional =>
    (∃ outer, openAfter before = some (.startOptional :: outer)) ∧ ¬ LeavesEmpty before
  | .endGroup => (∃ outer, openAfter before = some (.startGroup :: outer)) ∧ ¬ LeavesEmpty before
  | .choiceSeparator =>
    (Outside before → OffersWord before ∧ OpensWithWord after) ∧
      (¬ Outside before → ¬ LeavesEmpty before)
  | .negation => OpensWithWord after ∨ after.head?.map Token.symbol = some .startGroup
  | .startArgument => Outside before ∧ ∃ t, filling? .endArgument after = some t ∧ NamesArgument t
  | .startAssertion =>
    Outside before ∧ (∃ t, filling? .endAssertion after = some t ∧ t.trim ≠ []) ∧
      ∀ earlier ∈ before, earlier.symbol ≠ .startAssertion
  | .endArgument => ∃ earlier opener text, before = earlier ++ [opener, text] ∧
      opener.symbol = .startArgument ∧ ∃ t, text.symbol = .text t
  | .endAssertion => ∃ earlier opener text, before = earlier ++ [opener, text] ∧
      opener.symbol = .startAssertion ∧ ∃ t, text.symbol = .text t

/-- After the tokens seen so far, each of the others may stand where it does. -/
def Allows (seen : List Token) : List Token → Prop
  | [] => Outside seen
  | token :: rest => Allowed seen token.symbol rest ∧ Allows (seen ++ [token]) rest

theorem allows_iff : Allows seen rest ↔ Outside (seen ++ rest) ∧
    ∀ before token after, rest = before ++ token :: after →
      Allowed (seen ++ before) token.symbol after := by
  induction rest generalizing seen with
  | nil => simp [Allows]
  | cons token rest ih =>
    rw [Allows, ih, List.append_assoc, forall_splits_cons]
    simp only [List.append_nil, List.append_assoc, List.singleton_append]
    exact and_left_comm

/-- A closing bracket goes with the opening one of its kind. -/
theorem nest_endOptional (symbol : token.symbol = .endOptional) {opened outer : List Symbol} :
    nest opened token = some outer ↔ opened = .startOptional :: outer := by
  obtain _ | ⟨first, opened⟩ := opened
  · simp [nest, symbol]
  · cases first <;> simp [nest, symbol]

theorem nest_endGroup (symbol : token.symbol = .endGroup) {opened outer : List Symbol} :
    nest opened token = some outer ↔ opened = .startGroup :: outer := by
  obtain _ | ⟨first, opened⟩ := opened
  · simp [nest, symbol]
  · cases first <;> simp [nest, symbol]

/-- If brackets are nested to the end, they are up to any token, and the token goes with them. -/
theorem exists_nest (nested : Outside tokens) (e : tokens = before ++ token :: after) :
    ∃ opened opened', openAfter before = some opened ∧ nest opened token = some opened' := by
  subst e
  rw [Outside, openAfter, List.foldlM_append, Option.bind_eq_bind,
    Option.bind_eq_some_iff] at nested
  obtain ⟨opened, first, later⟩ := nested
  rw [List.foldlM_cons, Option.bind_eq_bind, Option.bind_eq_some_iff] at later
  obtain ⟨opened', next, -⟩ := later
  exact ⟨opened, opened', first, next⟩

theorem openAfter_startOptional {opened : List Symbol} (h : openAfter seen = some opened)
    (symbol : token.symbol = .startOptional) :
    openAfter (seen ++ [token]) = some (.startOptional :: opened) := by
  rw [openAfter_concat, h]
  simp [nest, symbol]

theorem openAfter_startGroup {opened : List Symbol} (h : openAfter seen = some opened)
    (symbol : token.symbol = .startGroup) :
    openAfter (seen ++ [token]) = some (.startGroup :: opened) := by
  rw [openAfter_concat, h]
  simp [nest, symbol]

theorem openAfter_bar (symbol : token.symbol = .choiceSeparator) :
    openAfter (seen ++ [token]) = openAfter seen :=
  openAfter_of_other (by simp [symbol]) (by simp [symbol]) (by simp [symbol]) (by simp [symbol])

/-- Inside brackets no stretch is left empty if none of the tokens that end one comes right after one
that starts one. -/
theorem not_leavesEmpty (inside : ¬ Outside before)
    (apart : ∀ earlier last, before = earlier ++ [last] → last.symbol = .startOptional ∨
      last.symbol = .startGroup ∨ last.symbol = .choiceSeparator ∧ ¬ Outside earlier → False) :
    ¬ LeavesEmpty before := by
  intro empty
  obtain rfl | ⟨earlier, last, rfl⟩ := List.eq_nil_or_concat before
  · simp [LeavesEmpty, lastSymbol?] at empty
  · rw [List.concat_eq_append] at *
    simp only [LeavesEmpty, lastSymbol?_append_cons, lastSymbol?_singleton, Option.some.injEq] at empty
    refine apart earlier last rfl ?_
    obtain opener | opener | bar := empty
    · exact .inl opener
    · exact .inr (.inl opener)
    · refine .inr (.inr ⟨bar, ?_⟩)
      rwa [Outside, openAfter_bar bar] at inside

/-- Tokens are grammatical and spare wildcards if each of them may stand where it does. -/
theorem grammatical_and_spares_iff :
    Grammatical tokens ∧ SparesWildcards tokens ↔ Allows [] tokens := by
  rw [allows_iff]
  simp only [List.nil_append]
  constructor
  · rintro ⟨g, spares⟩
    refine ⟨g.nested, fun before token after e => ?_⟩
    obtain ⟨opened, opened', open_, nested⟩ := exists_nest g.nested e
    have apart : ¬ Outside before → token.symbol = .endOptional ∨ token.symbol = .endGroup ∨
        token.symbol = .choiceSeparator → ¬ LeavesEmpty before := by
      intro inside ends
      refine not_leavesEmpty inside fun earlier last e' starts => ?_
      have := g.stretches earlier last (token :: after) (by simp [e, e']) starts token rfl
      simp_all
    cases symbol : token.symbol with
    | text | startOptional | startGroup => trivial
    | endOptional =>
      obtain rfl := (nest_endOptional symbol).1 nested
      exact ⟨⟨_, open_⟩, apart (by simp [Outside, open_]) (.inl symbol)⟩
    | endGroup =>
      obtain rfl := (nest_endGroup symbol).1 nested
      exact ⟨⟨_, open_⟩, apart (by simp [Outside, open_]) (.inr (.inl symbol))⟩
    | choiceSeparator =>
      refine ⟨fun outside => ?_, fun inside => apart inside (.inr (.inr symbol))⟩
      obtain ⟨closes, opens⟩ := g.bars before token after e symbol outside
      exact ⟨⟨closes, spares before token after e symbol outside⟩, opens⟩
    | negation => exact g.carets before token after e symbol
    | startArgument => exact g.argument before token after e symbol
    | startAssertion =>
      obtain ⟨outside, filled⟩ := g.assertion before token after e symbol
      exact ⟨outside, filled, g.once before token after e symbol⟩
    | endArgument => exact g.endArgument before token after e symbol
    | endAssertion => exact g.endAssertion before token after e symbol
  · rintro ⟨nested, each⟩
    refine ⟨⟨nested, ?_, ?_, ?_, ?_, ?_, ?_, ?_, ?_⟩, ?_⟩
    · intro before token after e symbol
      have := each before token after e
      rwa [symbol] at this
    · intro before token after e symbol
      have := each before token after e
      rw [symbol] at this
      exact ⟨this.1, this.2.1⟩
    · intro before token after e symbol
      have := each before token after e
      rwa [symbol] at this
    · intro before token after e symbol
      have := each before token after e
      rwa [symbol] at this
    · intro before token after e symbol
      have := each before token after e
      rw [symbol] at this
      exact this.2.2
    · intro before token rest e starts next head
      obtain ⟨after, rfl⟩ : ∃ after, rest = next :: after := List.head?_eq_some_iff.1 head
      have e' : tokens = (before ++ [token]) ++ next :: after := by simp [e]
      have own := each (before ++ [token]) next after e'
      obtain ⟨opened, -, open_, -⟩ := exists_nest nested e
      have empty : LeavesEmpty (before ++ [token]) := by
        simp only [LeavesEmpty, lastSymbol?_append_cons, lastSymbol?_singleton, Option.some.injEq]
        exact starts.imp_right fun h => h.imp_right And.left
      have inside : ¬ Outside (before ++ [token]) := by
        obtain symbol | symbol | ⟨symbol, inside⟩ := starts
        · simp [Outside, openAfter_startOptional open_ symbol]
        · simp [Outside, openAfter_startGroup open_ symbol]
        · rwa [Outside, openAfter_bar symbol]
      refine ⟨fun symbol => ?_, fun symbol => ?_, fun symbol => ?_⟩ <;> rw [symbol] at own
      · exact own.2 empty
      · exact own.2 empty
      · exact own.2 inside empty
    · intro before token after e symbol
      have := each before token after e
      rwa [symbol] at this
    · intro before token after e symbol outside
      have := each before token after e
      rw [symbol] at this
      exact ⟨(this.1 outside).1.1, (this.1 outside).2⟩
    · intro before token after e symbol outside
      have := each before token after e
      rw [symbol] at this
      exact (this.1 outside).1.2

end Token
end StepMatch
