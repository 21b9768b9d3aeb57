import StepMatch.Regex.Writing

/-!
# Patterns and their seams

A pattern is a regex together with the piece of the expression that it was made from. Patterns
that stand next to each other are merged, and the white space at the seam is settled by the shape
of the two texts:

* blanks at the end of the left pattern become optional when the right one may match nothing, and
  the right one then brings blanks of its own;
* an optional pattern in front of text that opens with blanks takes those blanks in;
* two optional patterns with only blanks between them fold into one, so that either may be left
  out.
-/

namespace StepMatch

/-- A regex without slots, and the piece of the expression behind it. -/
structure Pattern where
  regex : Text
  literal : Text
deriving DecidableEq, Repr

namespace Pattern

/-- Whether the bracket opened last, `depth` brackets deep, is closed by the final character.
A backslash hides the character after it. -/
def closesAtEnd : Nat → Text → Bool
  | _, [] => false
  | depth, '\\' :: _ :: t => closesAtEnd depth t
  | depth, '(' :: t => closesAtEnd (depth + 1) t
  | depth, ')' :: t => if depth ≤ 1 then t.isEmpty else closesAtEnd (depth - 1) t
  | depth, _ :: t => closesAtEnd depth t

/-- Whether the text is one pair of parentheses and what stands between them. -/
def isSingleGroup : Text → Bool
  | '(' :: t => closesAtEnd 1 t
  | _ => false

/-- The group of a regex that is an optional group and nothing else. -/
def optionalBody? (regex : Text) : Option Text :=
  (regex.withoutEnding? ['?']).filter isSingleGroup

/-- The regex as something that a quantifier can follow. -/
def atom (regex : Text) : Text :=
  if isSingleGroup regex then regex else '(' :: '?' :: ':' :: regex ++ [')']

/-- The end of a group that closes with blanks. -/
def blankTail : Text := ['\\', 's', '+', ')']

/-- The end of a group that closes with blanks or none. -/
def slackTail : Text := ['\\', 's', '*', ')']

/-- The start of a group that opens with blanks. -/
def blankHead : Text := ['(', '\\', 's', '+']

/-- A group of blanks and nothing else. -/
def blankGroup : Text := ['(', '\\', 's', '+', ')']

/-- The regex with its closing blanks, if any, made optional. -/
def relaxTail (regex : Text) : Text :=
  match regex.withoutEnding? blankTail with
  | some stem => stem ++ slackTail
  | none => regex

/-- What stands after the blanks that a group of text opens with, when it holds more than
blanks. -/
def paddedRest? (regex : Text) : Option Text :=
  (regex.withoutOpening? blankHead).filter fun rest => rest.head? != some ')'

/-- Whether the pattern is a single optional group. -/
def isOptional (p : Pattern) : Bool :=
  p.regex.getLast? == some '?' && isSingleGroup p.literal

/-- Two optional groups with blanks between them: either, both or neither. -/
def foldOptional (first second : Text) : Text :=
  "(?:".toList ++ first ++ "(?:\\s+".toList ++ second ++ ")?|".toList ++ second ++ ")?".toList

/-- An optional group that brings blanks in front of it. -/
def spacedOptional (inner : Text) : Text := "(?:\\s+".toList ++ inner ++ ")?".toList

/-- An optional group that takes the blanks after it in, and the group of the text after those. -/
def absorbBlanks (inner rest : Text) : Text := "(?:".toList ++ inner ++ "\\s+)?(".toList ++ rest

/-- The regex of two neighbours of which the left one may be optional and the right one open with
blanks. -/
def absorbRegex (left right : Text) : Text :=
  match optionalBody? left, paddedRest? right with
  | some inner, some rest => absorbBlanks inner rest
  | _, _ => left ++ right

/-- The regex of two neighbours, the white space at their seam settled. -/
def mergeRegex (left right : Pattern) : Text :=
  match (left.regex.withoutEnding? blankGroup).bind optionalBody?, right.isOptional with
  | some first, true => foldOptional first right.regex.dropLast
  | _, _ =>
    if (left.regex.withoutEnding? blankTail).isSome && right.isOptional then
      relaxTail left.regex ++ spacedOptional right.regex.dropLast
    else if (left.regex.withoutEnding? blankTail).isSome && right.literal == ['*'] then
      relaxTail left.regex ++ right.regex
    else absorbRegex left.regex right.regex

/-- One pattern for two neighbours. -/
def merge (left right : Pattern) : Pattern :=
  ⟨mergeRegex left right, left.literal ++ right.literal⟩

end Pattern
end StepMatch
