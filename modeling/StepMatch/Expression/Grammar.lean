import StepMatch.Expression.Node

/-!
# The grammar of expressions

Tokens are read from left to right into a tree. The reading keeps the brackets that are still
open, innermost first, and the parts of the innermost scope, last part first.

* Brackets with several alternatives are a choice; with a single one, parentheses make it
  optional and square brackets only group it.
* A bar outside all brackets chooses between the words that touch it.
* A caret negates the word or the square brackets after it.
* A star that is a word of its own is a wildcard.
* Slots stand outside all brackets, and an expression holds at most one assertion.
-/

namespace StepMatch

namespace Node

/-- Puts a literal character in front of parts, extending a literal that they open with. -/
def consLiteral (c : Char) : List Node → List Node
  | .literal t :: ns => .literal (c :: t) :: ns
  | ns => .literal [c] :: ns

/-- The parts that a run of text stands for: standalone stars are wildcards, the stretches
between them literals. `fresh` says that a word may start here. -/
def carveFrom (fresh : Bool) : Text → List Node
  | [] => []
  | c :: t =>
    if c == '*' && fresh && t.head?.all isBlank then .wildcard :: carveFrom false t
    else consLiteral c (carveFrom (isBlank c) t)

/-- The parts that a run of text stands for. -/
def carve (t : Text) : List Node := carveFrom true t

end Node

/-- The text cut after its first word; there is none when the text is empty or opens with a
blank. -/
def firstWord? (t : Text) : Option (Text × Text) :=
  match t.takeWhile isInk with
  | [] => none
  | word => some (word, t.dropWhile isInk)

/-- The text cut before its last word; there is none when the text is empty or closes with a
blank. -/
def lastWord? (t : Text) : Option (Text × Text) :=
  match t.reverse.takeWhile isInk with
  | [] => none
  | word => some ((t.reverse.dropWhile isInk).reverse, word.reverse)

/-- A bracket that is still open. -/
structure Bracket where
  /-- The token that opened it. -/
  opener : Token
  /-- Parentheses or square brackets. -/
  delimiter : Delimiter
  /-- Whether a caret stands in front of it. -/
  negated : Bool
  /-- The alternatives that are complete, last one first. -/
  finished : List (List Node)
  /-- The parts in front of the bracket, last one first. -/
  before : List Node

namespace Bracket

/-- The fault of a bracket, placed at the token that opened it. -/
def fault (b : Bracket) (cause : Fault.Cause) : Fault :=
  ⟨cause, b.opener.start, some b.opener.symbol.describe⟩

/-- The fault of a bracket that is never closed. -/
def unclosed (b : Bracket) : Fault :=
  b.fault (match b.delimiter with | .parenthesis => .unclosedOptional | _ => .unclosedGroup)

/-- The symbol that closes the bracket. -/
def closer (b : Bracket) : Symbol :=
  match b.delimiter with | .parenthesis => .endOptional | _ => .endGroup

/-- What the bracket stands for, once its last alternative is complete. -/
def node (b : Bracket) (last : List Node) : Except Fault Node :=
  match b.finished with
  | [] =>
    if last.isEmpty then .error (b.fault .emptyBrackets)
    else match b.delimiter with
      | .parenthesis => .ok (.optional (.ofParts last))
      | _ => .ok (.ofParts last)
  | finished =>
    let alternatives := (last :: finished).reverse
    if alternatives.any List.isEmpty then .error (b.fault .emptyAlternative)
    else .ok (.choice b.delimiter (alternatives.map Node.ofParts))

end Bracket

/-- How far a reading of tokens has come. -/
structure Reading where
  /-- The parts of the innermost scope, last one first. -/
  parts : List Node
  /-- The brackets that are open, innermost first. -/
  brackets : List Bracket
  /-- Whether an assertion slot has been read. -/
  asserted : Bool

namespace Reading

/-- Nothing read yet. -/
def start : Reading := ⟨[], [], false⟩

/-- Adds a part. -/
def push (s : Reading) (n : Node) : Reading := { s with parts := n :: s.parts }

/-- Adds the parts of a run of text. -/
def pushText (s : Reading) (t : Text) : Reading :=
  { s with parts := (Node.carve t).reverse ++ s.parts }

/-- Opens a bracket. -/
def openBracket (s : Reading) (opener : Token) (delimiter : Delimiter) (negated : Bool) :
    Reading :=
  { s with parts := [], brackets := ⟨opener, delimiter, negated, [], s.parts⟩ :: s.brackets }

/-- Completes an alternative of the innermost bracket. -/
def nextAlternative (s : Reading) (b : Bracket) (outer : List Bracket) : Reading :=
  { s with
    parts := []
    brackets := { b with finished := s.parts.reverse :: b.finished } :: outer }

/-- The negation of a part. It is a phrase when the part is written with a blank. -/
def negate (n : Node) : Node :=
  .negation (if n.toExpression.any isBlank then .phrase else .word) n

/-- Closes the innermost bracket. Square brackets outside all others that only group leave
their parts behind. -/
def closeBracket (s : Reading) (token : Token) : Except Fault Reading :=
  let fault cause : Fault := ⟨cause, token.start, some token.symbol.describe⟩
  match s.brackets with
  | [] => .error (fault .unbalancedClosing)
  | b :: outer =>
    if token.symbol = b.closer then do
      let n ← b.node s.parts.reverse
      let s' := { s with parts := b.before, brackets := outer }
      if b.negated then return s'.push (negate n)
      match n, outer with
      | .sequence children, [] => return { s' with parts := children.reverse ++ b.before }
      | n, _ => return s'.push n
    else .error (fault .mismatchedClosing)

/-- Reads a bar outside all brackets, with the text after it. -/
def chooseWord (s : Reading) (bar : Token) (t : Text) : Except Fault Reading :=
  let misplaced : Fault := ⟨.misplacedSeparator, bar.start, some ['|']⟩
  match firstWord? t with
  | none => .error misplaced
  | some (word, rest) =>
    let choose (alternatives before : List Node) : Reading :=
      let chosen := Node.choice .bare (alternatives ++ [Node.literal word])
      ({ s with parts := chosen :: before } : Reading).pushText rest
    match s.parts with
    | .choice .bare alternatives :: before => .ok (choose alternatives before)
    | .literal l :: before =>
      match lastWord? l with
      | none => .error misplaced
      | some ([], left) => .ok (choose [.literal left] before)
      | some (head, left) => .ok (choose [.literal left] (.literal head :: before))
    | _ => .error misplaced

/-- Reads a caret with the text after it. -/
def negateWord (s : Reading) (caret : Token) (t : Text) : Except Fault Reading :=
  match firstWord? t with
  | none => .error ⟨.danglingNegation, caret.start, some ['^']⟩
  | some (word, rest) => .ok ((s.push (.negation .word (.literal word))).pushText rest)

/-- Whether the text of an argument has a colon with a blank side. -/
def isMalformedArgument (t : Text) : Bool :=
  match t.splitAtFirst (· == ':') with
  | some (name, type) => name.trim.isEmpty || type.trim.isEmpty
  | none => false

/-- Reads the text of a slot that opens at `opener`. -/
def pushSlot (s : Reading) (opener : Token) (body : Text) : Except Fault Reading :=
  let t := body.trim
  if opener.symbol = .startAssertion then
    if t.isEmpty then .error ⟨.emptyAssertion, opener.start, some opener.symbol.describe⟩
    else if s.asserted then .error ⟨.repeatedAssertion, opener.start, some t⟩
    else .ok { s.push (.assertion t opener.start) with asserted := true }
  else
    if t.isEmpty then .error ⟨.emptyArgument, opener.start, some opener.symbol.describe⟩
    else if isMalformedArgument t then .error ⟨.malformedArgument, opener.start, some t⟩
    else .ok (s.push (.argument t opener.start))

/-- The symbol that closes a slot, and the causes of an empty and an unclosed one. -/
def slotShape (opener : Token) : Symbol × Fault.Cause × Fault.Cause :=
  if opener.symbol = .startAssertion then
    (.endAssertion, .emptyAssertion, .unclosedAssertion)
  else (.endArgument, .emptyArgument, .unclosedArgument)

/-- Why the tokens after `opener` are not the text of a slot and its end. -/
def slotFault (opener : Token) (after : List Token) : Fault :=
  let (closer, empty, unclosed) := slotShape opener
  let cause := match after with
    | token :: _ => if token.symbol = closer then empty else unclosed
    | [] => unclosed
  ⟨cause, opener.start, some opener.symbol.describe⟩

/-- Reads tokens to the end, giving the parts outside all brackets. -/
def run (s : Reading) : List Token → Except Fault (List Node)
  | [] =>
    match s.brackets with
    | [] => .ok s.parts.reverse
    | b :: _ => .error b.unclosed
  | token :: rest =>
    match token.symbol with
    | .text t => run (s.pushText t) rest
    | .startOptional => run (s.openBracket token .parenthesis false) rest
    | .startGroup => run (s.openBracket token .bracket false) rest
    | .endOptional => (s.closeBracket token).bind fun s' => run s' rest
    | .endGroup => (s.closeBracket token).bind fun s' => run s' rest
    | .choiceSeparator =>
      match s.brackets, rest with
      | b :: outer, rest => run (s.nextAlternative b outer) rest
      | [], ⟨.text t, _, _⟩ :: rest' => (s.chooseWord token t).bind fun s' => run s' rest'
      | [], _ => .error ⟨.misplacedSeparator, token.start, some ['|']⟩
    | .negation =>
      match rest with
      | ⟨.text t, _, _⟩ :: rest' => (s.negateWord token t).bind fun s' => run s' rest'
      | ⟨.startGroup, start, stop⟩ :: rest' =>
        run (s.openBracket ⟨.startGroup, start, stop⟩ .bracket true) rest'
      | _ => .error ⟨.danglingNegation, token.start, some ['^']⟩
    | .startArgument | .startAssertion =>
      if s.brackets.isEmpty then
        match rest with
        | ⟨.text t, _, _⟩ :: ⟨closer, _, _⟩ :: rest' =>
          if closer = (slotShape token).1 then (s.pushSlot token t).bind fun s' => run s' rest'
          else .error (slotFault token rest)
        | _ => .error (slotFault token rest)
      else .error ⟨.slotInsideBrackets, token.start, some token.symbol.describe⟩
    | .endArgument | .endAssertion =>
      .error ⟨.unbalancedClosing, token.start, some token.symbol.describe⟩

end Reading

namespace Node

/-- The tree of a list of tokens. -/
def ofTokens (tokens : List Token) : Except Fault Node :=
  (Reading.start.run tokens).bind fun parts =>
    if parts.isEmpty then .error ⟨.emptyExpression, 0, none⟩ else .ok (.ofParts parts)

/-- The tree of an expression. -/
def parse (expression : Text) : Except Fault Node :=
  (Token.scan expression).bind ofTokens

end Node
end StepMatch
