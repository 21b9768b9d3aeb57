import StepMatch.Proofs.Expression.Writing
import StepMatch.Proofs.Pattern.Rows
import StepMatch.Proofs.Text.Squeeze

/-!
# Expressions in clauses

Words, optional phrases and choices of phrases, with single spaces between neighbours. The tree of such
an expression has a literal for each run of words, and the spaces that join the run to what stands
around it belong to that literal.
-/

namespace StepMatch

/-- A word that stands for itself in an expression. -/
structure PlainWord extends Pattern.Word where
  tame : text ≠ ['*']

/-- Some words, at least one. -/
structure Wording where
  first : PlainWord
  more : List PlainWord

/-- The words of a phrase, in order. -/
def Wording.words (p : Wording) : List PlainWord := p.first :: p.more

/-- The words with single spaces between them. -/
def Wording.text (p : Wording) : Text := Text.joinWith [' '] (p.words.map fun w => w.text)

/-- A clause of an expression. -/
inductive Clause where
  | word (w : PlainWord)
  /-- A phrase in parentheses. -/
  | optional (p : Wording)
  /-- Phrases with bars between them, in parentheses, or in square brackets if not `round`. -/
  | choice (round : Bool) (first second : Wording) (more : List Wording)
  /-- Words with bars between them. -/
  | bare (first second : PlainWord) (more : List PlainWord)

namespace PlainWord

variable {w : PlainWord} {ws : List PlainWord}

theorem any_isBlank (w : PlainWord) : List.any w.text isBlank = false := by
  simpa [isInk] using w.ink

theorem words_text (w : PlainWord) : Text.words w.text = [w.text] :=
  Text.words_of_ink w.ne w.any_isBlank

theorem star_not_mem_map (ws : List PlainWord) : ['*'] ∉ ws.map fun w => w.text := by
  intro star
  obtain ⟨w, -, e⟩ := List.mem_map.1 star
  exact w.tame e

end PlainWord

namespace Wording

theorem words_ne_nil (p : Wording) : p.words ≠ [] := List.cons_ne_nil p.first p.more

theorem text_ne_nil (p : Wording) : p.text ≠ [] := by
  rw [text, words, List.map_cons, Text.joinWith_cons]
  exact List.append_ne_nil_of_left_ne_nil p.first.ne _

/-- The words of the text are those of the phrase. -/
theorem words_text (p : Wording) : Text.words p.text = p.words.map fun w => w.text := by
  obtain ⟨first, more⟩ := p
  rw [text, words]
  induction more generalizing first with
  | nil =>
    simpa [Text.joinWith] using first.words_text
  | cons next more ih =>
    have e : Text.joinWith [' '] ((first :: next :: more).map fun w => w.text) =
        first.text ++ ' ' :: Text.joinWith [' '] ((next :: more).map fun w => w.text) := by
      simp [Text.joinWith]
    rw [e, Text.words_append_space, first.words_text, ih next]
    rfl

theorem star_not_mem_words (p : Wording) : ['*'] ∉ Text.words p.text := by
  rw [p.words_text]
  exact PlainWord.star_not_mem_map p.words

end Wording

namespace Clause

/-- The clause as an expression. -/
def write : Clause → Text
  | .word w => escapeLiteral w.text
  | .optional p => '(' :: escapeLiteral p.text ++ [')']
  | .choice round first second more =>
    (Delimiter.ofRound round).opening ++
      Text.joinWith ['|'] ((first :: second :: more).map fun p => escapeLiteral p.text) ++
        (Delimiter.ofRound round).closing
  | .bare first second more =>
    Text.joinWith ['|'] ((first :: second :: more).map fun w => escapeLiteral w.text)

/-- The tree of the clause. -/
def node : Clause → Node
  | .word w => .literal w.text
  | .optional p => .optional (.literal p.text)
  | .choice round first second more =>
    .choice (.ofRound round) ((first :: second :: more).map fun p => .literal p.text)
  | .bare first second more => .choice .bare ((first :: second :: more).map fun w => .literal w.text)

/-- The clauses with single spaces between them. -/
def writeAll (cs : List Clause) : Text := Text.joinWith [' '] (cs.map write)

/-- A space if there are clauses left. -/
def gap (cs : List Clause) : Text := if cs.isEmpty then [] else [' ']

/-- The literal text that clauses open with. -/
def head : List Clause → Text
  | .word w :: rest => w.text ++ gap rest ++ head rest
  | .bare first _ _ :: _ => first.text
  | .optional _ :: _ | .choice .. :: _ | [] => []

/-- The symbols of clauses after the literal text that they open with. -/
def later : List Clause → List Symbol
  | [] => []
  | .word _ :: rest => later rest
  | .optional p :: rest =>
    .startOptional :: .text p.text :: .endOptional :: (Symbol.ofText (gap rest ++ head rest) ++ later rest)
  | .choice round first second more :: rest =>
    .opener round :: .text first.text ::
      (second :: more).flatMap (fun p => [.choiceSeparator, .text p.text]) ++
        .closer round :: (Symbol.ofText (gap rest ++ head rest) ++ later rest)
  | .bare _ second more :: rest =>
    Symbol.bars second.text (more.map fun w => w.text) (gap rest ++ head rest) ++ later rest

/-- A run of words with a space after each, after a clause in brackets if `lead`. -/
def pending (lead : Bool) (ws : List PlainWord) : Text :=
  (if lead then [' '] else []) ++ ws.flatMap fun w => w.text ++ [' ']

/-- The parts of clauses, after a run of words. -/
def parts : Bool → List PlainWord → List Clause → List Node
  | _, _, [] => []
  | lead, ws, .word w :: rest =>
    if rest.isEmpty then [.literal (pending lead ws ++ w.text)] else parts lead (ws ++ [w]) rest
  | lead, ws, c :: rest => Node.ofText (pending lead ws) ++ c.node :: parts true [] rest

variable {c : Clause} {cs : List Clause} {lead : Bool} {ws : List PlainWord}

/-! The expression as symbols -/

theorem writeAll_cons (c : Clause) (cs : List Clause) :
    writeAll (c :: cs) = c.write ++ if cs.isEmpty then [] else ' ' :: writeAll cs := by
  cases cs <;> simp [writeAll, Text.joinWith]

/-- The symbols write the expression. -/
theorem write_symbols (cs : List Clause) :
    escapeLiteral (head cs) ++ (later cs).flatMap Symbol.write = writeAll cs := by
  induction cs with
  | nil => rfl
  | cons c rest ih =>
    have goesOn : escapeLiteral (gap rest ++ head rest) ++ (later rest).flatMap Symbol.write =
        if rest.isEmpty then [] else ' ' :: writeAll rest := by
      rw [escapeLiteral_append, List.append_assoc, ih]
      obtain _ | ⟨d, rest⟩ := rest <;> rfl
    rw [writeAll_cons, ← goesOn]
    cases c with
    | word w => simp [head, later, write, escapeLiteral_append]
    | optional p =>
      simp [head, later, write, Symbol.write, Symbol.describe, Symbol.flatMap_write_ofText,
        escapeLiteral]
    | choice round first second more =>
      rw [write, List.map_cons, Text.joinWith_cons]
      cases round <;>
        simp [head, later, Symbol.write, Symbol.describe, Symbol.flatMap_write_ofText, Symbol.opener,
          Symbol.closer, Delimiter.ofRound, Delimiter.opening, Delimiter.closing, List.flatMap_map,
          List.flatMap_assoc, escapeLiteral]
    | bare first second more =>
      rw [write, List.map_cons, Text.joinWith_cons, head, later, List.flatMap_append,
        Symbol.flatMap_write_bars]
      simp [List.flatMap_map]

theorem text_nil_not_mem_bars {word : Text} {more : List Text} (words : ∀ u ∈ word :: more, u ≠ [])
    (t : Text) : .text [] ∉ Symbol.bars word more t := by
  have ne : word ≠ [] := words word List.mem_cons_self
  induction more generalizing word with
  | nil => simp [Symbol.bars, ne]
  | cons next more ih =>
    have later := ih (fun u hu => words u (List.mem_cons_of_mem word hu))
      (words next (List.mem_cons_of_mem word List.mem_cons_self))
    simp [Symbol.bars, ne, later]

theorem text_nil_not_mem_ofText (t : Text) : .text [] ∉ Symbol.ofText t := by
  rw [Symbol.ofText]
  split
  · simp
  · rename_i ne
    simpa using Ne.symm ne

/-- No symbol stands for empty text. -/
theorem text_nil_not_mem_later (cs : List Clause) : .text [] ∉ later cs := by
  induction cs with
  | nil => simp [later]
  | cons c rest ih =>
    have ofText := text_nil_not_mem_ofText (gap rest ++ head rest)
    cases c with
    | word w => exact ih
    | optional p => simp [later, ih, ofText, p.text_ne_nil]
    | choice round first second more =>
      have each : ∀ p : Wording, [] ≠ p.text := fun p e => p.text_ne_nil e.symm
      cases round <;> simp [later, ih, ofText, each, Symbol.opener, Symbol.closer]
    | bare first second more =>
      have words : ∀ u ∈ second.text :: more.map (fun w => w.text), u ≠ [] := by
        simp only [List.mem_cons, List.mem_map]
        rintro _ (rfl | ⟨w, -, rfl⟩)
        · exact second.ne
        · exact w.ne
      simp [later, ih, text_nil_not_mem_bars words]

/-- No text stands after the text that the clauses open with. -/
theorem head?_later (cs : List Clause) (t : Text) : (later cs).head? ≠ some (.text t) := by
  induction cs with
  | nil => simp [later]
  | cons c rest ih =>
    cases c with
    | word w => exact ih
    | optional p => simp [later]
    | choice round first second more => cases round <;> simp [later, Symbol.opener]
    | bare first second more => cases more <;> simp [later, Symbol.bars]

theorem apart_text {t : Text} {symbol : Symbol} (other : ∀ u, symbol ≠ .text u) :
    Symbol.Apart (.text t) symbol := by
  cases symbol <;> first | trivial | exact absurd rfl (other _)

theorem isChain_ofText {symbols : List Symbol} (t : Text)
    (other : ∀ u, symbols.head? ≠ some (.text u)) (apart : symbols.IsChain Symbol.Apart) :
    (Symbol.ofText t ++ symbols).IsChain Symbol.Apart := by
  rw [Symbol.ofText]
  split
  · exact apart
  · refine apart.cons fun symbol own => apart_text fun u e => other u ?_
    rw [own, e]

theorem isChain_bars {symbols : List Symbol} (word : Text) (more : List Text) (t : Text)
    (other : ∀ u, symbols.head? ≠ some (.text u)) (apart : symbols.IsChain Symbol.Apart) :
    (Symbol.bars word more t ++ symbols).IsChain Symbol.Apart := by
  induction more generalizing word with
  | nil =>
    refine (apart.cons fun symbol own => apart_text fun u e => other u ?_).cons fun _ _ => trivial
    rw [own, e]
  | cons next more ih =>
    refine ((ih next).cons fun symbol own => apart_text fun u e => ?_).cons fun _ _ => trivial
    subst e
    cases more <;> cases own

theorem isChain_alternatives {symbols : List Symbol} (first : Wording) (more : List Wording)
    (other : ∀ u, symbols.head? ≠ some (.text u)) (apart : symbols.IsChain Symbol.Apart) :
    List.IsChain Symbol.Apart
      (.text first.text :: more.flatMap (fun p => [.choiceSeparator, .text p.text]) ++ symbols) := by
  induction more generalizing first with
  | nil =>
    refine apart.cons fun symbol own => apart_text fun u e => other u ?_
    rw [own, e]
  | cons next more ih => exact .cons_cons trivial (.cons_cons trivial (ih next))

/-- No two neighbours run into each other. -/
theorem isChain_later (cs : List Clause) : (later cs).IsChain Symbol.Apart := by
  induction cs with
  | nil => exact .nil
  | cons c rest ih =>
    have goesOn := isChain_ofText (gap rest ++ head rest) (head?_later rest) ih
    cases c with
    | word w => exact ih
    | optional p =>
      rw [later]
      refine .cons_cons trivial (.cons_cons trivial (goesOn.cons fun _ _ => trivial))
    | choice round first second more =>
      have closed : (.closer round :: (Symbol.ofText (gap rest ++ head rest) ++ later rest)).IsChain
          Symbol.Apart := by
        refine goesOn.cons fun _ _ => ?_
        cases round <;> trivial
      have inside := isChain_alternatives first (second :: more)
        (fun u => by cases round <;> simp [Symbol.closer]) closed
      refine inside.cons fun symbol own => ?_
      obtain rfl : .text first.text = symbol := Option.some.inj own
      cases round <;> trivial
    | bare first second more => exact isChain_bars _ _ _ (head?_later rest) ih

/-! The tree of the expression -/

theorem words_pending_append (lead : Bool) (ws : List PlainWord) (t : Text) :
    Text.words (pending lead ws ++ t) = (ws.map fun w => w.text) ++ Text.words t := by
  have run : Text.words ((ws.flatMap fun w => w.text ++ [' ']) ++ t) =
      (ws.map fun w => w.text) ++ Text.words t := by
    induction ws with
    | nil => rfl
    | cons w ws ih =>
      have e : ((w :: ws).flatMap fun w => w.text ++ [' ']) ++ t =
          w.text ++ ' ' :: ((ws.flatMap fun w => w.text ++ [' ']) ++ t) := by simp
      rw [e, Text.words_append_space, w.words_text, ih]
      rfl
  rw [pending, List.append_assoc]
  cases lead with
  | false => exact run
  | true => exact (Text.words_append_space [] _).trans run

theorem words_pending (lead : Bool) (ws : List PlainWord) :
    Text.words (pending lead ws) = ws.map fun w => w.text := by
  have whole := words_pending_append lead ws []
  rwa [List.append_nil, show Text.words [] = [] from rfl, List.append_nil] at whole

theorem star_not_mem_words_pending (lead : Bool) (ws : List PlainWord) :
    ['*'] ∉ Text.words (pending lead ws) := by
  rw [words_pending]
  exact PlainWord.star_not_mem_map ws

theorem star_not_mem_words_pending_append (lead : Bool) (ws : List PlainWord) (w : PlainWord) :
    ['*'] ∉ Text.words (pending lead ws ++ w.text) := by
  have star := PlainWord.star_not_mem_map (ws ++ [w])
  rw [List.map_append] at star
  rwa [words_pending_append, w.words_text]

theorem pending_concat (lead : Bool) (ws : List PlainWord) (w : PlainWord) :
    pending lead (ws ++ [w]) = pending lead ws ++ (w.text ++ [' ']) := by
  simp [pending]

theorem getLast?_pending (lead : Bool) (ws : List PlainWord) :
    (pending lead ws).getLast?.all isBlank = true := by
  obtain rfl | ⟨ws, w, rfl⟩ := List.eq_nil_or_concat' ws
  · cases lead <;> rfl
  · rw [pending_concat, ← List.append_assoc, List.getLast?_concat]
    rfl

/-- Clauses in brackets are told apart from words, which join what stands around them. -/
theorem parts_cons (bracketed : ∀ w, c ≠ .word w) (lead : Bool) (ws : List PlainWord)
    (cs : List Clause) :
    parts lead ws (c :: cs) = Node.ofText (pending lead ws) ++ c.node :: parts true [] cs := by
  cases c with
  | word w => exact absurd rfl (bracketed w)
  | optional | choice | bare => rfl

theorem parts_ne_nil (lead : Bool) (ws : List PlainWord) (ne : cs ≠ []) : parts lead ws cs ≠ [] := by
  induction cs generalizing ws with
  | nil => exact absurd rfl ne
  | cons c rest ih =>
    cases c with
    | word w =>
      rw [parts]
      split
      · exact List.cons_ne_nil _ _
      · rename_i more
        exact ih (ws ++ [w]) (by simpa using more)
    | optional | choice | bare => exact List.append_ne_nil_of_right_ne_nil _ (List.cons_ne_nil _ _)

/-- The symbols of clauses lead to their parts. -/
theorem runs {s : Reading} (outside : s.brackets = []) (lead : Bool) (ws : List PlainWord)
    (ne : cs ≠ []) :
    (s.pushText (pending lead ws ++ head cs)).Runs (later cs)
      (s.parts.reverse ++ parts lead ws cs) := by
  induction cs generalizing s lead ws with
  | nil => exact absurd rfl ne
  | cons c rest ih =>
    have goesOn {s : Reading} (outside : s.brackets = []) :
        (s.pushText (gap rest ++ head rest)).Runs (later rest)
          (s.parts.reverse ++ parts true [] rest) := by
      by_cases none : rest = []
      · subst none
        exact .nil outside (List.append_nil _).symm
      · have space : gap rest = pending true [] := by simp [gap, none, pending]
        rw [space]
        exact ih outside true [] none
    have pushed : (s.pushText (pending lead ws)).parts.reverse =
        s.parts.reverse ++ Node.ofText (pending lead ws) := by
      simp [Reading.pushText, Node.carve_of_words (star_not_mem_words_pending lead ws)]
    cases c with
    | word w =>
      by_cases none : rest = []
      · subst none
        have carved := Node.carve_of_ne_nil (List.append_ne_nil_of_right_ne_nil _ w.ne)
          (star_not_mem_words_pending_append lead ws w)
        refine .nil outside ?_
        simp [head, gap, parts, Reading.pushText, carved]
      · have longer : pending lead ws ++ head (.word w :: rest) =
            pending lead (ws ++ [w]) ++ head rest := by
          simp [head, gap, none, pending_concat]
        rw [longer, later, parts, if_neg (by simpa using none)]
        exact ih outside lead (ws ++ [w]) none
    | optional p =>
      rw [parts_cons (by simp), ← List.append_assoc, ← pushed, head, List.append_nil]
      refine .optional p.text_ne_nil p.star_not_mem_words (.ofText ?_)
      simpa [node, Reading.push] using
        goesOn (s := (s.pushText (pending lead ws)).push (node (.optional p))) outside
    | choice round first second more =>
      rw [parts_cons (by simp), ← List.append_assoc, ← pushed, head, List.append_nil]
      have texts : ∀ u ∈ first.text :: (second :: more).map Wording.text,
          u ≠ [] ∧ ['*'] ∉ Text.words u := by
        intro u hu
        obtain ⟨p, -, rfl⟩ := List.mem_map.1 (show u ∈ (first :: second :: more).map Wording.text from hu)
        exact ⟨p.text_ne_nil, p.star_not_mem_words⟩
      have chosen := Reading.Runs.choice round (s := s.pushText (pending lead ws)) (by simp) texts
        (.ofText (goesOn outside))
      simpa [later, node, Reading.push, List.flatMap_map, Function.comp_def] using chosen
    | bare first second more =>
      have words : ∀ u ∈ first.text :: second.text :: more.map (fun w => w.text),
          u ≠ [] ∧ List.any u isBlank = false := by
        intro u hu
        obtain ⟨w, -, rfl⟩ :=
          List.mem_map.1 (show u ∈ (first :: second :: more).map (fun w => w.text) from hu)
        exact ⟨w.ne, w.any_isBlank⟩
      have own : (s.pushText (pending lead ws ++ first.text)).parts =
          .literal (pending lead ws ++ first.text) :: s.parts := by
        have carved := Node.carve_of_ne_nil (List.append_ne_nil_of_right_ne_nil _ first.ne)
          (star_not_mem_words_pending_append lead ws first)
        rw [Reading.pushText, carved]
        rfl
      have edge : (gap rest ++ head rest).head?.all isBlank = true := by
        obtain _ | ⟨c, rest⟩ := rest <;> rfl
      rw [parts_cons (by simp), head, later]
      refine .choiceOfWords outside own (getLast?_pending lead ws) words edge ?_
      let n := node (.bare first second more)
      have same : (first.text :: second.text :: more.map fun w => w.text).map Node.literal =
          (first :: second :: more).map fun w => .literal w.text := by simp
      have reversed : (Node.ofText (pending lead ws)).reverse = Node.ofText (pending lead ws) := by
        rw [Node.ofText]
        split <;> rfl
      have order : s.parts.reverse ++ (Node.ofText (pending lead ws) ++ n :: parts true [] rest) =
          (n :: (Node.ofText (pending lead ws) ++ s.parts)).reverse ++ parts true [] rest := by
        simp [reversed]
      rw [same, order]
      exact goesOn outside

end Clause

/-- The tree of an expression in clauses. -/
theorem Node.parse_clauses {cs : List Clause} (ne : cs ≠ []) :
    parse (Clause.writeAll cs) = .ok (.ofParts (Clause.parts false [] cs)) := by
  rw [← Clause.write_symbols, ← Symbol.flatMap_write_ofText, ← List.flatMap_append]
  refine parse_write ?_ ?_ (.ofText (Clause.runs rfl false [] ne)) ?_
  · rw [List.mem_append, not_or]
    exact ⟨Clause.text_nil_not_mem_ofText _, Clause.text_nil_not_mem_later cs⟩
  · exact Clause.isChain_ofText _ (Clause.head?_later cs) (Clause.isChain_later cs)
  · exact Clause.parts_ne_nil false [] ne

end StepMatch
