import Mathlib.Data.List.Chain
import StepMatch.Proofs.Expression.Trees

/-!
# Expressions as they are written

Symbols that are written one after the other are scanned as they stand, if no two neighbours run into
each other when they are written. So a tree can be had from the symbols alone. A run of text with no
star as a word of its own is one literal.
-/

namespace StepMatch

/-- The expression text of a symbol, the structural characters of literal text escaped. -/
def Symbol.write : Symbol → Text
  | .text t => escapeLiteral t
  | symbol => symbol.describe

/-- The symbols of literal text: none for empty text. -/
def Symbol.ofText (t : Text) : List Symbol := if t = [] then [] else [.text t]

theorem Symbol.flatMap_write_ofText (t : Text) : (ofText t).flatMap write = escapeLiteral t := by
  rw [ofText]
  split
  · rename_i none
    rw [none]
    rfl
  · exact List.append_nil _

/-- The parts of literal text: none for empty text. -/
def Node.ofText (t : Text) : List Node := if t = [] then [] else [.literal t]

/-- Parentheses, or square brackets if not `round`. -/
def Delimiter.ofRound (round : Bool) : Delimiter := if round then .parenthesis else .bracket

/-- The symbol that opens parentheses or square brackets. -/
def Symbol.opener (round : Bool) : Symbol := if round then .startOptional else .startGroup

/-- The symbol that closes parentheses or square brackets. -/
def Symbol.closer (round : Bool) : Symbol := if round then .endOptional else .endGroup

/-- The symbols of a bare choice after its first alternative. The last alternative goes on into the
text after it. -/
def Symbol.bars (word : Text) : List Text → Text → List Symbol
  | [], t => [.choiceSeparator, .text (word ++ t)]
  | next :: more, t => .choiceSeparator :: .text word :: bars next more t

theorem escapeLiteral_append (t u : Text) :
    escapeLiteral (t ++ u) = escapeLiteral t ++ escapeLiteral u := List.flatMap_append

theorem Symbol.flatMap_write_bars (word : Text) (more : List Text) (t : Text) :
    (bars word more t).flatMap write =
      (word :: more).flatMap (fun w => '|' :: escapeLiteral w) ++ escapeLiteral t := by
  induction more generalizing word with
  | nil => simp [bars, write, describe, escapeLiteral_append]
  | cons next more ih => simp [bars, write, describe, ih]

/-- Whether two symbols can be told apart where they are written next to each other. -/
def Symbol.Apart : Symbol → Symbol → Prop
  | .text _, .text _ => False
  | .startArgument, .startArgument | .startArgument, .startAssertion => False
  | .endArgument, .endArgument | .endArgument, .endAssertion => False
  | _, _ => True

namespace Token

variable {rest t : Text} {symbols : List Symbol} {pos : Nat}

/-- A literal character extends the text after it. -/
theorem exists_scanFrom_cons (pos : Nat) (c : Char) (rest : Text) : ∃ stop,
    scanFrom pos ((if isStructural c then ['\\', c] else [c]) ++ rest) =
      (scanFrom stop rest).map (joinText pos stop [c]) := by
  cases structural : isStructural c with
  | true =>
    refine ⟨pos + 1 + c.utf8Size, ?_⟩
    simp [scanFrom, unescape, structural]
  | false =>
    refine ⟨pos + c.utf8Size, ?_⟩
    simp only [isStructural, Bool.or_eq_false_iff, beq_eq_false_iff_ne] at structural
    have none : symbolOf? c = none := by
      unfold symbolOf?
      split <;> simp_all
    simp only [Bool.false_eq_true, if_false, List.cons_append, List.nil_append]
    rw [scanFrom.eq_def]
    split <;> simp_all

/-- Literal text in front of something else is one run of text. -/
theorem exists_scanFrom_text (ne : t ≠ [])
    (scans : ∀ pos, ∃ tokens, scanFrom pos rest = .ok tokens ∧ tokens.map Token.symbol = symbols)
    (apart : ∀ u, symbols.head? ≠ some (.text u)) (pos : Nat) : ∃ tokens,
      scanFrom pos (escapeLiteral t ++ rest) = .ok tokens ∧
        tokens.map Token.symbol = .text t :: symbols := by
  induction t generalizing pos with
  | nil => exact absurd rfl ne
  | cons c t ih =>
    have write : escapeLiteral (c :: t) ++ rest =
        (if isStructural c then ['\\', c] else [c]) ++ (escapeLiteral t ++ rest) := by
      simp [escapeLiteral]
    obtain ⟨stop, e⟩ := exists_scanFrom_cons pos c (escapeLiteral t ++ rest)
    rw [write, e]
    by_cases more : t = []
    · subst more
      obtain ⟨tokens, scanned, rfl⟩ := scans stop
      have own : escapeLiteral [] ++ rest = rest := rfl
      rw [own, scanned]
      refine ⟨joinText pos stop [c] tokens, rfl, ?_⟩
      cases tokens with
      | nil => rfl
      | cons token tokens =>
        obtain ⟨symbol, start, stop'⟩ := token
        cases symbol <;> first | rfl | exact absurd rfl (apart _)
    · obtain ⟨tokens, scanned, same⟩ := ih more stop
      rw [scanned]
      refine ⟨joinText pos stop [c] tokens, rfl, ?_⟩
      cases tokens with
      | nil => cases same
      | cons token tokens =>
        obtain ⟨symbol, start, stop'⟩ := token
        rw [List.map_cons] at same
        obtain ⟨rfl, rfl⟩ := List.cons.inj same
        rfl

theorem head?_escapeLiteral (ne : t ≠ []) {c : Char} (structural : isStructural c = true)
    (slash : c ≠ '\\') : (escapeLiteral t ++ rest).head? ≠ some c := by
  obtain ⟨d, t, rfl⟩ := List.exists_cons_of_ne_nil ne
  cases h : isStructural d with
  | true => simpa [escapeLiteral, h] using slash.symm
  | false =>
    simp only [escapeLiteral, List.flatMap_cons, h, Bool.false_eq_true, if_false, List.cons_append,
      List.head?_cons, ne_eq, Option.some.injEq]
    rintro rfl
    rw [structural] at h
    cases h

/-- After a single brace another one of its kind is not written. -/
theorem head?_write (texts : .text [] ∉ symbols) {c : Char} {symbol : Symbol}
    (brace : c = '{' ∧ symbol = .startArgument ∨ c = '}' ∧ symbol = .endArgument)
    (apart : ∀ next ∈ symbols.head?, symbol.Apart next) :
    (symbols.flatMap Symbol.write).head? ≠ some c := by
  obtain _ | ⟨next, symbols⟩ := symbols
  · simp
  · rw [List.mem_cons, not_or] at texts
    have apart := apart next rfl
    rcases brace with ⟨rfl, rfl⟩ | ⟨rfl, rfl⟩
    all_goals
      cases next with
      | text t => exact head?_escapeLiteral (fun e => texts.1 (e ▸ rfl)) (by decide) (by decide)
      | _ => first | exact apart.elim | simp [Symbol.write, Symbol.describe]

/-- A single brace is told from a pair by what comes after it. -/
theorem scanFrom_brace {c : Char} {symbol : Symbol}
    (brace : c = '{' ∧ symbol = .startArgument ∨ c = '}' ∧ symbol = .endArgument)
    (single : rest.head? ≠ some c) : scanFrom pos (c :: rest) =
      (scanFrom (pos + c.utf8Size) rest).map (⟨symbol, pos, pos + c.utf8Size⟩ :: ·) := by
  rcases brace with ⟨rfl, rfl⟩ | ⟨rfl, rfl⟩
  all_goals
    obtain _ | ⟨d, rest⟩ := rest
    · rfl
    · rw [scanFrom.eq_def]
      split
      all_goals rename_i e
      all_goals first
        | (obtain ⟨rfl, rfl⟩ := List.cons.inj e; rfl)
        | simp_all

/-- Symbols are scanned as they are written. -/
theorem exists_scanFrom_write (texts : .text [] ∉ symbols) (apart : symbols.IsChain Symbol.Apart)
    (pos : Nat) : ∃ tokens, scanFrom pos (symbols.flatMap Symbol.write) = .ok tokens ∧
      tokens.map Token.symbol = symbols := by
  induction symbols generalizing pos with
  | nil => exact ⟨[], rfl, rfl⟩
  | cons symbol symbols ih =>
    rw [List.mem_cons, not_or] at texts
    rw [List.flatMap_cons]
    rw [List.isChain_cons] at apart
    have scans := ih texts.2 apart.2
    -- what is left is found after the symbol, whose own token goes in front
    have found {token : Token} {stop : Nat} (own : token.symbol = symbol)
        (scan : scanFrom pos (symbol.write ++ symbols.flatMap Symbol.write) =
          (scanFrom stop (symbols.flatMap Symbol.write)).map (token :: ·)) :
        ∃ tokens, scanFrom pos (symbol.write ++ symbols.flatMap Symbol.write) = .ok tokens ∧
          tokens.map Token.symbol = symbol :: symbols := by
      obtain ⟨tokens, scanned, same⟩ := scans stop
      rw [scan, scanned]
      exact ⟨token :: tokens, rfl, by rw [List.map_cons, own, same]⟩
    cases symbol with
    | text t =>
      exact exists_scanFrom_text (fun e => texts.1 (e ▸ rfl)) scans (fun u e => apart.1 _ e) pos
    | startArgument =>
      have brace : '{' = '{' ∧ Symbol.startArgument = .startArgument ∨
        '{' = '}' ∧ Symbol.startArgument = .endArgument := .inl ⟨rfl, rfl⟩
      exact found rfl (scanFrom_brace brace (head?_write texts.2 brace apart.1))
    | endArgument =>
      have brace : '}' = '{' ∧ Symbol.endArgument = .startArgument ∨
        '}' = '}' ∧ Symbol.endArgument = .endArgument := .inr ⟨rfl, rfl⟩
      exact found rfl (scanFrom_brace brace (head?_write texts.2 brace apart.1))
    | startAssertion | endAssertion | startOptional | endOptional | startGroup | endGroup
      | choiceSeparator | negation => exact found rfl rfl

end Token

namespace Node

variable {t : Text}

/-- Text goes on as the literal in front of it. -/
theorem consLiteral_eq (c : Char) (h : carveFrom (isBlank c) t = ofText t) :
    consLiteral c (carveFrom (isBlank c) t) = ofText (c :: t) := by
  rw [h, ofText]
  split
  · rename_i nil
    rw [nil]
    rfl
  · rfl

theorem carveFrom_of_words (fresh : Bool)
    (star : ['*'] ∉ if fresh then t.words else (Text.splitWords t).2) :
    carveFrom fresh t = ofText t := by
  induction t generalizing fresh with
  | nil => rfl
  | cons c t ih =>
    rw [carveFrom]
    cases blank : isBlank c with
    | true =>
      have alone : (c == '*') = false := by
        rw [beq_eq_false_iff_ne]
        rintro rfl
        cases blank
      have words : ['*'] ∉ Text.words t := by
        cases fresh <;> simpa [Text.words, Text.splitWords, blank, Text.closeWord] using star
      rw [alone, Bool.false_and, Bool.false_and, if_neg Bool.false_ne_true, ← blank]
      exact consLiteral_eq c (ih _ (by rwa [blank, if_pos rfl]))
    | false =>
      have later : ['*'] ∉ (Text.splitWords t).2 := by
        cases fresh with
        | true =>
          rw [if_pos rfl, Text.words, Text.splitWords] at star
          simp only [blank, Bool.false_eq_true, if_false, Text.closeWord, List.isEmpty_cons] at star
          exact fun h => star (List.mem_cons_of_mem _ h)
        | false => simpa [Text.splitWords, blank] using star
      have opens : (c == '*' && fresh && t.head?.all isBlank) = false := by
        by_contra h
        simp only [Bool.not_eq_false, Bool.and_eq_true, beq_iff_eq] at h
        obtain ⟨⟨rfl, rfl⟩, edge⟩ := h
        have none : (Text.splitWords t).1 = [] := by
          obtain _ | ⟨d, t⟩ := t
          · rfl
          · have blank : isBlank d = true := by simpa using edge
            simp [Text.splitWords, blank]
        rw [if_pos rfl, Text.words, Text.splitWords] at star
        simp [blank, none, Text.closeWord] at star
      rw [opens, if_neg Bool.false_ne_true, ← blank]
      exact consLiteral_eq c (ih _ (by rwa [blank, if_neg Bool.false_ne_true]))

theorem toExpression_choice_ne_star (d : Delimiter) (n m : Node) (ns : List Node) :
    (choice d (n :: m :: ns)).toExpression ≠ ['*'] := by
  intro e
  have bar : '|' ∈ (choice d (n :: m :: ns)).toExpression := by
    simp [toExpression, choiceExpression]
  rw [e] at bar
  simp at bar

/-- A run of text with no star as a word of its own is one literal. -/
theorem carve_of_words (star : ['*'] ∉ t.words) : carve t = ofText t :=
  carveFrom_of_words true (by rwa [if_pos rfl])

theorem carve_of_ne_nil (ne : t ≠ []) (star : ['*'] ∉ t.words) : carve t = [.literal t] := by
  rw [carve_of_words star, ofText, if_neg ne]

end Node

/-- A star that is no word of its own stands among other text. -/
theorem Text.ne_star {t : Text} (star : ['*'] ∉ t.words) : t ≠ ['*'] := by
  rintro rfl
  exact star (by decide)

theorem escapeLiteral_ne_star {t : Text} (star : t ≠ ['*']) : escapeLiteral t ≠ ['*'] := by
  obtain _ | ⟨c, t⟩ := t
  · exact List.cons_ne_nil _ _ |>.symm
  · cases structural : isStructural c with
    | true => simp [escapeLiteral, structural]
    | false =>
      have write : escapeLiteral (c :: t) = c :: escapeLiteral t := by
        simp [escapeLiteral, structural]
      rw [write]
      intro e
      obtain ⟨rfl, none⟩ := List.cons.inj e
      obtain _ | ⟨d, t⟩ := t
      · exact star rfl
      · cases own : isStructural d <;> simp [escapeLiteral, own] at none

/-! Words at the ends of a text -/

variable {word t : Text}

/-- Ink in front of blanks or nothing. -/
theorem takeWhile_isInk_append (ink : word.any isBlank = false) (edge : t.head?.all isBlank = true) :
    (word ++ t).takeWhile isInk = word ∧ (word ++ t).dropWhile isInk = t := by
  have all : ∀ c ∈ word, isInk c = true := by simpa [isInk] using ink
  rw [List.takeWhile_append_of_pos all, List.dropWhile_append_of_pos all]
  obtain _ | ⟨c, t⟩ := t
  · simp
  · have blank : isBlank c = true := by simpa using edge
    simp [isInk, blank]

theorem firstWord?_append (ne : word ≠ []) (ink : word.any isBlank = false)
    (edge : t.head?.all isBlank = true) : firstWord? (word ++ t) = some (word, t) := by
  obtain ⟨take, drop⟩ := takeWhile_isInk_append ink edge
  obtain ⟨c, word, rfl⟩ := List.exists_cons_of_ne_nil ne
  rw [firstWord?, take, drop]

theorem lastWord?_append (ne : word ≠ []) (ink : word.any isBlank = false)
    (edge : t.getLast?.all isBlank = true) : lastWord? (t ++ word) = some (t, word) := by
  obtain ⟨take, drop⟩ := takeWhile_isInk_append ((List.any_reverse ..).trans ink)
    (List.head?_reverse.symm ▸ edge)
  obtain ⟨c, more, e⟩ := List.exists_cons_of_ne_nil (List.reverse_ne_nil_iff.2 ne)
  rw [lastWord?, List.reverse_append, take, drop, e]
  dsimp only
  rw [← e, List.reverse_reverse, List.reverse_reverse]

/-- Alternatives of literal text make a choice, if there are two at least when the bracket closes. -/
theorem Bracket.node_literals (b : Bracket) {done : List Text} (t : Text)
    (finished : b.finished.reverse = done.map fun u => [Node.literal u]) (ne : done ≠ []) :
    b.node [.literal t] = .ok (.choice b.delimiter ((done ++ [t]).map .literal)) := by
  have whole : ([.literal t] :: b.finished).reverse = (done ++ [t]).map fun u => [.literal u] := by
    simp [finished]
  rw [node.eq_def]
  split
  · rename_i none
    rw [none] at finished
    exact absurd (List.map_eq_nil_iff.1 finished.symm) ne
  · dsimp only
    rw [whole, if_neg (by simp), List.map_map]
    rfl

namespace Reading

variable {s : Reading} {symbols : List Symbol} {parts : List Node} {t : Text} {more : List Text}

/-- Whatever tokens with these symbols are read from here on, they lead to the parts. -/
def Runs (s : Reading) (symbols : List Symbol) (parts : List Node) : Prop :=
  ∀ tokens, tokens.map Token.symbol = symbols → s.run tokens = .ok parts

theorem exists_eq_cons {tokens : List Token} {symbol : Symbol}
    (same : tokens.map Token.symbol = symbol :: symbols) : ∃ start stop rest,
      tokens = ⟨symbol, start, stop⟩ :: rest ∧ rest.map Token.symbol = symbols := by
  obtain ⟨⟨_, start, stop⟩, rest, rfl, rfl, same⟩ := List.map_eq_cons_iff.1 same
  exact ⟨start, stop, rest, rfl, by assumption⟩

theorem pushText_of_empty (empty : s.parts = []) (own : t ≠ [] ∧ ['*'] ∉ t.words) :
    s.pushText t = { s with parts := [.literal t] } := by
  rw [pushText, Node.carve_of_ne_nil own.1 own.2, empty]
  rfl

namespace Runs

theorem nil (closed : s.brackets = []) (same : s.parts.reverse = parts) : Runs s [] parts := by
  intro tokens none
  rw [List.map_eq_nil_iff.1 none, run, closed]
  exact congrArg Except.ok same

theorem text (later : Runs (s.pushText t) symbols parts) : Runs s (.text t :: symbols) parts := by
  intro tokens same
  obtain ⟨_, _, rest, rfl, same'⟩ := exists_eq_cons same
  simpa [run] using later rest same'

theorem ofText (later : Runs (s.pushText t) symbols parts) :
    Runs s (Symbol.ofText t ++ symbols) parts := by
  rw [Symbol.ofText]
  split
  · rename_i none
    subst none
    exact later
  · exact later.text

/-- Literal text in parentheses. -/
theorem optional (ne : t ≠ []) (star : ['*'] ∉ t.words)
    (later : Runs (s.push (.optional (.literal t))) symbols parts) :
    Runs s (.startOptional :: .text t :: .endOptional :: symbols) parts := by
  intro tokens same
  obtain ⟨_, _, _, rfl, same₁⟩ := exists_eq_cons same
  obtain ⟨_, _, _, rfl, same₂⟩ := exists_eq_cons same₁
  obtain ⟨_, _, rest, rfl, same₃⟩ := exists_eq_cons same₂
  refine Eq.trans ?_ (later rest same₃)
  simp [run, pushText, Node.carve_of_ne_nil ne star, openBracket, closeBracket, Bracket.node,
    Bracket.closer, Node.ofParts]
  rfl

/-- A negated phrase. -/
theorem negatedPhrase (ne : t ≠ []) (star : ['*'] ∉ t.words) (blank : t.any isBlank = true)
    (later : Runs (s.push (.negation .phrase (.literal t))) symbols parts) :
    Runs s (.negation :: .startGroup :: .text t :: .endGroup :: symbols) parts := by
  intro tokens same
  obtain ⟨_, _, _, rfl, same₁⟩ := exists_eq_cons same
  obtain ⟨_, _, _, rfl, same₂⟩ := exists_eq_cons same₁
  obtain ⟨_, _, _, rfl, same₃⟩ := exists_eq_cons same₂
  obtain ⟨_, _, rest, rfl, same₄⟩ := exists_eq_cons same₃
  have negated : negate (.literal t) = .negation .phrase (.literal t) := by
    rw [negate, Node.toExpression, any_isBlank_escapeLiteral, if_pos blank]
  refine Eq.trans ?_ (later rest same₄)
  simp [run, pushText, Node.carve_of_ne_nil ne star, openBracket, closeBracket, Bracket.node,
    Bracket.closer, Node.ofParts, negated]
  rfl

/-- A negated word, with text after it that opens with a blank if there is any. -/
theorem negatedWord {word : Text} (ne : word ≠ []) (ink : word.any isBlank = false)
    (edge : t.head?.all isBlank = true)
    (later : Runs ((s.push (.negation .word (.literal word))).pushText t) symbols parts) :
    Runs s (.negation :: .text (word ++ t) :: symbols) parts := by
  intro tokens same
  obtain ⟨_, _, _, rfl, same₁⟩ := exists_eq_cons same
  obtain ⟨_, _, rest, rfl, same₂⟩ := exists_eq_cons same₁
  refine Eq.trans ?_ (later rest same₂)
  simp [run, negateWord, firstWord?_append ne ink edge]
  rfl

/-- Alternatives of literal text up to the bracket that closes them, after those in `done`. -/
theorem alternatives {b : Bracket} {outer : List Bracket} {done : List Text}
    (inside : s.brackets = b :: outer) (empty : s.parts = []) (positive : b.negated = false)
    (finished : b.finished.reverse = done.map fun u => [Node.literal u])
    (several : done ≠ [] ∨ more ≠ []) (texts : ∀ u ∈ t :: more, u ≠ [] ∧ ['*'] ∉ Text.words u)
    (later : Runs
      { s with
        parts := .choice b.delimiter ((done ++ t :: more).map .literal) :: b.before
        brackets := outer } symbols parts) :
    Runs s (.text t :: more.flatMap (fun u => [.choiceSeparator, .text u]) ++ b.closer :: symbols)
      parts := by
  induction more generalizing t s b done with
  | nil =>
    have pushed := pushText_of_empty empty (texts t List.mem_cons_self)
    intro tokens same
    obtain ⟨start, stop, _, rfl, same₁⟩ := exists_eq_cons same
    obtain ⟨start', stop', rest, rfl, same₂⟩ := exists_eq_cons same₁
    have closed : (s.pushText t).closeBracket ⟨b.closer, start', stop'⟩ = .ok
        { s with
          parts := .choice b.delimiter ((done ++ [t]).map .literal) :: b.before
          brackets := outer } := by
      have node := b.node_literals t finished (several.resolve_right (by simp))
      rw [pushed, closeBracket.eq_def, inside]
      dsimp only
      rw [if_pos rfl, List.reverse_singleton, node]
      simp [positive, push]
      rfl
    have step : s.run (⟨.text t, start, stop⟩ :: ⟨b.closer, start', stop'⟩ :: rest) =
        ((s.pushText t).closeBracket ⟨b.closer, start', stop'⟩).bind fun s' => s'.run rest := by
      obtain ⟨opener, delimiter, negated, finished, before⟩ := b
      cases delimiter <;> simp [run, Bracket.closer]
    rw [step, closed]
    exact later rest same₂
  | cons u more ih =>
    have pushed := pushText_of_empty empty (texts t List.mem_cons_self)
    intro tokens same
    obtain ⟨_, _, _, rfl, same₁⟩ := exists_eq_cons same
    obtain ⟨_, _, rest, rfl, same₂⟩ := exists_eq_cons same₁
    let b' : Bracket := { b with finished := [.literal t] :: b.finished }
    have finished' : b'.finished.reverse = (done ++ [t]).map fun u => [Node.literal u] := by
      simp [b', finished]
    have step := ih (s := (s.pushText t).nextAlternative b outer) (b := b') (by rw [pushed]; rfl) rfl
      positive finished' (.inl (by simp)) (fun v hv => texts v (List.mem_cons_of_mem t hv))
      (by simpa [nextAlternative, pushed] using later) rest same₂
    simpa [run, pushed, inside] using step

/-- Alternatives of literal text in brackets. -/
theorem choice (round : Bool) (several : more ≠ [])
    (texts : ∀ u ∈ t :: more, u ≠ [] ∧ ['*'] ∉ Text.words u)
    (later : Runs (s.push (.choice (.ofRound round) ((t :: more).map .literal))) symbols parts) :
    Runs s (.opener round :: .text t :: more.flatMap (fun u => [.choiceSeparator, .text u]) ++
      .closer round :: symbols) parts := by
  intro tokens same
  obtain ⟨start, stop, rest, rfl, same₁⟩ := exists_eq_cons same
  let b : Bracket := ⟨⟨.opener round, start, stop⟩, .ofRound round, false, [], s.parts⟩
  have closer : b.closer = .closer round := by cases round <;> rfl
  have inner : Runs { s with parts := [], brackets := b :: s.brackets }
      (.text t :: more.flatMap (fun u => [.choiceSeparator, .text u]) ++ b.closer :: symbols) parts :=
    alternatives rfl rfl rfl List.map_nil.symm (.inr several) texts later
  rw [closer] at inner
  refine Eq.trans ?_ (inner rest same₁)
  cases round <;> simp [run, Symbol.opener, openBracket, b, Delimiter.ofRound]

/-- The alternatives of a bare choice after the first ones. -/
theorem bars {alternatives before : List Node} (outside : s.brackets = []) {word : Text}
    (chosen : s.parts = .choice .bare alternatives :: before)
    (words : ∀ u ∈ word :: more, u ≠ [] ∧ List.any u isBlank = false)
    (edge : t.head?.all isBlank = true)
    (later : Runs (pushText
      { s with parts := .choice .bare (alternatives ++ (word :: more).map .literal) :: before } t)
      symbols parts) :
    Runs s (Symbol.bars word more t ++ symbols) parts := by
  induction more generalizing word s alternatives with
  | nil =>
    intro tokens same
    obtain ⟨_, _, _, rfl, same₁⟩ := exists_eq_cons same
    obtain ⟨_, _, rest, rfl, same₂⟩ := exists_eq_cons same₁
    obtain ⟨ne, ink⟩ := words word List.mem_cons_self
    have step := later rest same₂
    simpa [run, outside, chooseWord, firstWord?_append ne ink edge, chosen, Except.bind] using step
  | cons next more ih =>
    intro tokens same
    obtain ⟨_, _, _, rfl, same₁⟩ := exists_eq_cons same
    obtain ⟨_, _, rest, rfl, same₂⟩ := exists_eq_cons same₁
    obtain ⟨ne, ink⟩ := words word List.mem_cons_self
    let s' : Reading := { s with parts := .choice .bare (alternatives ++ [.literal word]) :: before }
    have outside' : s'.brackets = [] := outside
    have chosen' : s'.parts = .choice .bare (alternatives ++ [.literal word]) :: before := rfl
    have step := ih outside' chosen' (fun u hu => words u (List.mem_cons_of_mem word hu))
      (by simpa [s'] using later) rest same₂
    have whole := firstWord?_append (t := []) ne ink rfl
    rw [List.append_nil] at whole
    simpa [run, outside, chooseWord, whole, chosen, Except.bind, pushText, Node.carve,
      Node.carveFrom, s'] using step

/-- A bare choice takes the last word of the text in front of it. -/
theorem choiceOfWords {l word next : Text} {before : List Node} (outside : s.brackets = [])
    (own : s.parts = .literal (l ++ word) :: before) (joint : l.getLast?.all isBlank = true)
    (words : ∀ u ∈ word :: next :: more, u ≠ [] ∧ List.any u isBlank = false)
    (edge : t.head?.all isBlank = true)
    (later : Runs (pushText
      { s with
        parts := .choice .bare ((word :: next :: more).map .literal) :: (Node.ofText l ++ before) } t)
      symbols parts) :
    Runs s (Symbol.bars next more t ++ symbols) parts := by
  let s' : Reading := { s with parts := .choice .bare [.literal word] :: (Node.ofText l ++ before) }
  have outside' : s'.brackets = [] := outside
  have one : s'.parts = .choice .bare [.literal word] :: (Node.ofText l ++ before) := rfl
  have chosen : s'.Runs (Symbol.bars next more t ++ symbols) parts :=
    bars outside' one (fun u hu => words u (List.mem_cons_of_mem word hu)) edge later
  obtain ⟨ne, ink⟩ := words word List.mem_cons_self
  have same (bar : Token) (u : Text) : s.chooseWord bar u = s'.chooseWord bar u := by
    have last := lastWord?_append ne ink joint
    rw [chooseWord.eq_def, chooseWord.eq_def]
    cases firstWord? u with
    | none => rfl
    | some cut =>
      simp only [s', own, last]
      cases l <;> rfl
  intro tokens symbols'
  have run' := chosen tokens symbols'
  obtain ⟨u, rest, e⟩ : ∃ u rest, Symbol.bars next more t = .choiceSeparator :: .text u :: rest := by
    cases more <;> exact ⟨_, _, rfl⟩
  rw [e] at symbols'
  obtain ⟨_, _, _, rfl, same₁⟩ := exists_eq_cons symbols'
  obtain ⟨_, _, rest', rfl, -⟩ := exists_eq_cons same₁
  simpa [run, outside, same, s'] using run'

end Runs

end Reading

/-- The tree of written symbols is that of any tokens with these symbols. -/
theorem Node.parse_write {symbols : List Symbol} {parts : List Node} (texts : .text [] ∉ symbols)
    (apart : symbols.IsChain Symbol.Apart) (runs : Reading.start.Runs symbols parts)
    (ne : parts ≠ []) : parse (symbols.flatMap Symbol.write) = .ok (.ofParts parts) := by
  obtain ⟨tokens, scanned, same⟩ := Token.exists_scanFrom_write texts apart 0
  have found : (Token.scan (symbols.flatMap Symbol.write)).toOption = some tokens := by
    rw [Token.scan, scanned]
    rfl
  refine parse_of_tokens found ?_
  rw [ofTokens, runs tokens same]
  simp [Except.bind, ne]

end StepMatch
