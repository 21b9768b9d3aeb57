import StepMatch.Text.Hidden
import StepMatch.Text.Blank

/-!
# Quoted text

Text in double quotes, as it is shown to people. A quote and a backslash get a backslash in front,
a few control characters have a letter of their own, and any other hidden character is shown by
its code point.
-/

namespace StepMatch.Text

/-- A double quote. -/
def doubleQuote : Char := '\x22'

/-- A code point in hexadecimal digits between braces. -/
def showCodePoint (c : Char) : Text :=
  '\\' :: 'u' :: '{' :: Nat.toDigits 16 c.toNat ++ ['}']

/-- A character as it stands between quotes. -/
def quoteChar (c : Char) : Text :=
  match c with
  | '\x00' => ['\\', '0']
  | '\t' => ['\\', 't']
  | '\n' => ['\\', 'n']
  | '\r' => ['\\', 'r']
  | '\\' => ['\\', '\\']
  | '\x22' => ['\\', '\x22']
  | c => if isHidden c then showCodePoint c else [c]

/-- The text in quotes. -/
def quoted (t : Text) : String :=
  asString (doubleQuote :: t.flatMap quoteChar ++ [doubleQuote])

end StepMatch.Text
