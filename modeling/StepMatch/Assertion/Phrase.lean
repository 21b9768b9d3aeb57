import StepMatch.Assertion.Basic
import StepMatch.Regex.Writing
import StepMatch.Regex.Reading
import StepMatch.Regex.Search

/-!
# Phrases

A phrase is a template such as "is greater than", followed by a placeholder for a value, under the
key of what it means. The phrases of a set are tried in order: the first one that a text fits as a
whole decides. Blanks of a template stand for any others.
-/

namespace StepMatch

/-- What stands in a template for a value. -/
def valuePlaceholder : Text := ['{', 'v', 'a', 'l', 'u', 'e', '}']

/-- A phrase under its key. -/
structure PhraseEntry where
  key : String
  template : Text
deriving DecidableEq, Repr

namespace PhraseEntry

/-- A phrase without a value. -/
def plain (key words : String) : PhraseEntry := ⟨key, words.toList⟩

/-- A phrase of some words and a value after them. -/
def taking (key words : String) : PhraseEntry :=
  ⟨key, words.toList ++ ' ' :: valuePlaceholder⟩

end PhraseEntry

/-- The parts of a template around its placeholders. -/
def templateParts : Text → List Text
  | [] => [[]]
  | '{' :: 'v' :: 'a' :: 'l' :: 'u' :: 'e' :: '}' :: t => [] :: templateParts t
  | c :: t =>
    match templateParts t with
    | [] => [[c]]
    | part :: parts => (c :: part) :: parts

/-- The regex of a part of a template. -/
def partOfTemplateRegex (part : Text) : Text :=
  match part.words with
  | [] => if part.isEmpty then [] else Regex.blanks
  | words =>
    (if part.startsBlank then Regex.blanks else []) ++ Regex.spacedWords words
      ++ (if part.endsBlank then Regex.blanks else [])

/-- The regex of a template, with a regex for the value. -/
def templateRegex (template value : Text) : Text :=
  Text.joinWith value ((templateParts template).map partOfTemplateRegex)

/-- The name of the group that takes the value. -/
def valueGroup : Text := ['v', 'a', 'l', 'u', 'e']

/-- A phrase that texts can be tried against. -/
structure Phrase extends PhraseEntry where
  /-- Fits the phrase as a whole, and names the value. -/
  regex : Regex
deriving DecidableEq, Repr

/-- The key and the value that a text has by a phrase. -/
def Phrase.resolve? (p : Phrase) (t : Text) : Option (String × Option Text) :=
  (p.regex.search t).map fun o => (p.key, o.group? valueGroup)

/-- Phrases in the order in which they are tried. -/
structure PhraseSet where
  phrases : List Phrase
  /-- Recognises any of the phrases inside a sentence. -/
  regex : Text
deriving DecidableEq, Repr

namespace PhraseSet

/-- Makes a phrase for values of a given shape. -/
def phrase (valueRegex : Text) (e : PhraseEntry) : Except AssertionFault Phrase :=
  match Regex.read? .plain
      (Regex.anchored (templateRegex e.template (Regex.namedGroup valueGroup valueRegex))) with
  | some r => .ok { e with regex := r }
  | none => .error (.invalidPhrase e.template)

/-- Makes a set of phrases for values of a given shape. -/
def ofEntries (entries : List PhraseEntry) (valueRegex : Text) :
    Except AssertionFault PhraseSet :=
  (entries.mapM (phrase valueRegex)).map fun phrases =>
    ⟨phrases, Regex.alternatives
      (entries.map fun e => templateRegex e.template (Regex.grouped valueRegex))⟩

/-- The templates in order. -/
def templates (s : PhraseSet) : List Text := s.phrases.map fun p => p.template

/-- The key of the first phrase that a text fits, and the value in it. -/
def resolve? (s : PhraseSet) (t : Text) : Option (String × Option Text) :=
  s.phrases.findSome? fun p => p.resolve? t.trim

end PhraseSet

/-- Makes assertions from phrases. -/
structure AssertionFactory where
  name : String
  /-- The phrases that are understood in a locale. -/
  phrases : Locale → Except AssertionFault PhraseSet
  /-- The assertion of a key, with the text of the value if the phrase has one. -/
  build : String → Option Text → Locale → Except AssertionFault Assertion

instance : Named AssertionFactory := ⟨AssertionFactory.name⟩

namespace AssertionFactory

/-- The assertion that a text phrases. -/
def resolve (f : AssertionFactory) (l : Locale) (t : Text) : Except AssertionFault Assertion :=
  (f.phrases l).bind fun phrases =>
    match phrases.resolve? t with
    | some (key, value) => f.build key value l
    | none => .error (.unresolved f.name l t phrases.templates)

end AssertionFactory
end StepMatch
