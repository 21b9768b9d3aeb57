import StepMatch.DataType.Basic

/-!
# Data types that are the same everywhere

One regex, one list of hints and one reader for all locales.
-/

namespace StepMatch.DataType

/-- A data type that does not depend on the locale. -/
def fixed (name : String) (kind : ValueKind) (regex : Text) (hints : List String)
    (convert : Text → Except String Value) : DataType where
  name := name
  kind := kind
  regex _ := regex
  hints _ := hints
  read _ := convert

/-- Any run of characters that are not blank. -/
def word : DataType :=
  fixed "word" .text "\\S+".toList ["word"] fun t => .ok (.text t)

/-- A letter or underscore, then letters, digits, underscores, dots and dashes. -/
def identifier : DataType :=
  fixed "id" .text "[A-Za-z_][A-Za-z0-9_.\\-]*".toList ["identifier"] fun t => .ok (.text t)

/-- The text between two quotes of the given kind. -/
def unquote? (quote : Char) : Text → Option Text
  | c :: t => if c == quote && t.getLast? == some quote then some t.dropLast else none
  | [] => none

/-- A single quote. -/
def singleQuote : Char := '\x27'

/-- Text in double or in single quotes, without these. -/
def quotedText : DataType :=
  fixed "text" .text "\"[^\"]*\"|'[^']*'".toList ["\"text\"", "'text'"] fun t =>
    match unquote? Text.doubleQuote t <|> unquote? singleQuote t with
    | some inner => .ok (.text inner)
    | none => .error "text must be enclosed in matching quotes"

end StepMatch.DataType
