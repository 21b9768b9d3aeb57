import StepMatch.Text.Blank

/-!
# Writing regexes

The text of regexes is put together from smaller ones. In literal text each character that a
regex gives a meaning of its own is written with a backslash in front.
-/

namespace StepMatch.Regex

/-- The characters that are written with a backslash. -/
def isMeta (c : Char) : Bool :=
  c == '\\' || c == '.' || c == '+' || c == '*' || c == '?' || c == '(' || c == ')' || c == '|'
    || c == '[' || c == ']' || c == '{' || c == '}' || c == '^' || c == '$' || c == '#'
    || c == '&' || c == '-' || c == '~'

/-- A regex that matches one given character. -/
def escapeChar (c : Char) : Text := if isMeta c then ['\\', c] else [c]

/-- A regex that matches the given text and nothing else. -/
def escape (t : Text) : Text := t.flatMap escapeChar

/-- Some blanks, at least one. -/
def blanks : Text := ['\\', 's', '+']

/-- The decimal digits of a whole number. -/
def number (n : Nat) : Text := Nat.toDigits 10 n

/-- A regex that matches exactly `n` digits. -/
def digits (n : Nat) : Text := '\\' :: 'd' :: '{' :: number n ++ ['}']

/-- A regex that matches from one digit to `n` digits. -/
def digitsUpTo (n : Nat) : Text := '\\' :: 'd' :: '{' :: '1' :: ',' :: number n ++ ['}']

/-- A group without a name around a regex. -/
def grouped (regex : Text) : Text := '(' :: '?' :: ':' :: regex ++ [')']

/-- A group with a name around a regex. -/
def namedGroup (name regex : Text) : Text :=
  "(?P<".toList ++ name ++ '>' :: regex ++ [')']

/-- A group around a regex that ignores the case of letters. -/
def foldedGroup (regex : Text) : Text := "(?i:".toList ++ regex ++ [')']

/-- The regex as one for a whole text. -/
def anchored (regex : Text) : Text := '^' :: regex ++ ['$']

/-- Several regexes as alternatives, earlier ones by preference. -/
def alternatives (regexes : List Text) : Text := Text.joinWith ['|'] regexes

/-- The given words with blanks between neighbours. -/
def spacedWords (words : List Text) : Text := Text.joinWith blanks (words.map escape)

end StepMatch.Regex
