import StepMatch.Locale.Tag
import StepMatch.Locale.Layout

/-!
# The conventions of a locale

A locale decides how numbers, dates, times and assertion phrases are written. Only its language
counts, and for English whether it is that of the United States. Locales of any other language
follow the United States.
-/

namespace StepMatch

/-- The languages that have conventions of their own. -/
inductive Language where
  | english
  | spanish
  | french
  | german
  | italian
  | portuguese
  | japanese
  | chinese
deriving DecidableEq, Repr

/-- The language with a given code. -/
def Language.ofCode? : String → Option Language
  | "en" => some .english
  | "es" => some .spanish
  | "fr" => some .french
  | "de" => some .german
  | "it" => some .italian
  | "pt" => some .portuguese
  | "ja" => some .japanese
  | "zh" => some .chinese
  | _ => none

/-- How numbers are punctuated. -/
structure NumberMarks where
  /-- Stands between groups of digits. -/
  grouping : Char
  /-- Stands in front of the fraction. -/
  decimal : Char
  /-- The number of digits in a group. -/
  groupSize : Nat
deriving DecidableEq, Repr

/-- The languages that assertion phrases are written in. -/
inductive PhraseLanguage where
  | english
  | spanish
deriving DecidableEq, Repr

namespace Locale

/-- The language of the locale, if it has conventions of its own. -/
def language? (l : Locale) : Option Language := Language.ofCode? l.language

/-- Whether dates and times follow the United States. -/
def isAmerican (l : Locale) : Bool :=
  match l.language? with
  | some .english => l.region.all (· == "US")
  | some _ => false
  | none => true

/-- The marks of numbers. -/
def numberMarks (l : Locale) : NumberMarks :=
  match l.language? with
  | some .spanish | some .german | some .italian | some .portuguese => ⟨'.', ',', 3⟩
  | some .french => ⟨'\u202f', ',', 3⟩
  | _ => ⟨',', '.', 3⟩

/-- The layouts of dates, the most common first. -/
def dateLayouts (l : Locale) : List DateLayout :=
  if l.isAmerican then DateLayout.american
  else match l.language? with
    | some .spanish => DateLayout.spanish
    | some .german => DateLayout.german
    | some .portuguese => DateLayout.portuguese
    | some .japanese | some .chinese => DateLayout.eastAsian
    | _ => DateLayout.european

/-- The layouts of times of day, the most common first. -/
def timeLayouts (l : Locale) : List TimeLayout :=
  if l.isAmerican then TimeLayout.halfDays else TimeLayout.fullDays

/-- The names of the months. -/
def monthNames (l : Locale) : MonthNames :=
  match l.language? with
  | some .spanish => .spanish
  | some .french => .french
  | some .german => .german
  | some .italian => .italian
  | some .portuguese => .portuguese
  | _ => .english

/-- The language of assertion phrases. -/
def phraseLanguage (l : Locale) : PhraseLanguage :=
  match l.language? with
  | some .spanish => .spanish
  | _ => .english

end Locale
end StepMatch
