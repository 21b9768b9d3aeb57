import StepMatch.Expression.Fault

/-!
# Tokens

An expression is cut into structural symbols and runs of literal text. A backslash before a
structural character makes it literal; before any other character it stands for itself. Braces
are taken in pairs where a pair stands. The cut is purely lexical: balance and nesting are the
business of the grammar.

Text is joined from the right: the literal characters in front of a run of text extend that run,
so no two runs of text touch.
-/

namespace StepMatch

/-- Whether a character has a meaning of its own in an expression. -/
def isStructural (c : Char) : Bool :=
  c == '^' || c == '(' || c == ')' || c == '[' || c == ']' || c == '{' || c == '}' || c == '|'
    || c == '\\'

/-- What a token stands for. Only a run of text carries a payload, its escapes resolved. -/
inductive Symbol where
  | text (t : Text)
  | startOptional
  | endOptional
  | startGroup
  | endGroup
  | choiceSeparator
  | negation
  | startAssertion
  | endAssertion
  | startArgument
  | endArgument
deriving DecidableEq, Repr

/-- The expression text of a symbol; for a run of text, the text itself. -/
def Symbol.describe : Symbol → Text
  | .text t => t
  | .startOptional => ['(']
  | .endOptional => [')']
  | .startGroup => ['[']
  | .endGroup => [']']
  | .choiceSeparator => ['|']
  | .negation => ['^']
  | .startAssertion => ['{', '{']
  | .endAssertion => ['}', '}']
  | .startArgument => ['{']
  | .endArgument => ['}']

/-- A symbol with the bytes of the expression that it was read from. -/
structure Token where
  symbol : Symbol
  /-- Byte offset of the first character. -/
  start : Nat
  /-- Byte offset after the last character. -/
  stop : Nat
deriving DecidableEq, Repr

namespace Token

/-- Puts literal text, read from `start` to `stop`, in front of the tokens after it. -/
def joinText (start stop : Nat) (piece : Text) : List Token → List Token
  | ⟨.text t, _, stop'⟩ :: later => ⟨.text (piece ++ t), start, stop'⟩ :: later
  | later => ⟨.text piece, start, stop⟩ :: later

/-- The literal text that a backslash and the character after it stand for. -/
def unescape (c : Char) : Text := if isStructural c then [c] else ['\\', c]

/-- The symbols that a single character writes. -/
def symbolOf? : Char → Option Symbol
  | '(' => some .startOptional
  | ')' => some .endOptional
  | '[' => some .startGroup
  | ']' => some .endGroup
  | '|' => some .choiceSeparator
  | '^' => some .negation
  | '{' => some .startArgument
  | '}' => some .endArgument
  | _ => none

/-- The tokens of the text that starts at byte `pos` of the expression. -/
def scanFrom (pos : Nat) : Text → Except Fault (List Token)
  | [] => .ok []
  | ['\\'] => .error ⟨.trailingEscape, pos, some ['\\']⟩
  | '\\' :: c :: rest =>
    let stop := pos + 1 + c.utf8Size
    (scanFrom stop rest).map (joinText pos stop (unescape c))
  | '{' :: '{' :: rest => (scanFrom (pos + 2) rest).map (⟨.startAssertion, pos, pos + 2⟩ :: ·)
  | '}' :: '}' :: rest => (scanFrom (pos + 2) rest).map (⟨.endAssertion, pos, pos + 2⟩ :: ·)
  | c :: rest =>
    let stop := pos + c.utf8Size
    match symbolOf? c with
    | some symbol => (scanFrom stop rest).map (⟨symbol, pos, stop⟩ :: ·)
    | none => (scanFrom stop rest).map (joinText pos stop [c])

/-- The tokens of an expression. Only a backslash with nothing after it is refused. -/
def scan (expression : Text) : Except Fault (List Token) := scanFrom 0 expression

end Token
end StepMatch
