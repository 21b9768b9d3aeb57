import StepMatch.Text.Blank

/-!
# Locales

A locale is named by a tag: a language, perhaps a script, perhaps a region, and any number of
variants, joined by dashes. Tags are read leniently as to case and white space around them, and
kept in one canonical form, so that two tags name the same locale exactly when these are equal.
-/

namespace StepMatch

/-- A locale, in its canonical form. -/
structure Locale where
  /-- The code of the language, `und` when there is none. -/
  language : String
  script : Option String := none
  region : Option String := none
  /-- In ascending order, each once. -/
  variants : List String := []
deriving DecidableEq, Repr

/-- Why a tag names no locale. -/
inductive LocaleFault.Cause where
  | language
  | subtag
deriving DecidableEq, Repr

/-- A tag that names no locale. -/
structure LocaleFault where
  /-- The tag as it was given. -/
  tag : Text
  cause : LocaleFault.Cause
deriving DecidableEq, Repr

/-- The wording of a fault. -/
def LocaleFault.message (f : LocaleFault) : String :=
  "invalid locale `" ++ Text.asString f.tag ++ "`: Parser error: " ++
    match f.cause with
    | .language => "The given language subtag is invalid"
    | .subtag => "Invalid subtag"

namespace Locale

/-- English as written in the United States, the locale of those who name none. -/
def default : Locale := { language := "en", region := some "US" }

instance : Inhabited Locale := ⟨default⟩

/-- The canonical tag. -/
def tag (l : Locale) : String :=
  "-".intercalate (l.language :: l.script.toList ++ l.region.toList ++ l.variants)

/-- Whether a character is an ASCII letter. -/
def isLetter (c : Char) : Bool := c.isAlpha

/-- Whether a character is an ASCII letter or digit. -/
def isLetterOrDigit (c : Char) : Bool := c.isAlphanum

/-- The parts of a tag. -/
def subtags (t : Text) : List Text := t.splitOnP fun c => c == '-' || c == '_'

/-- Text in lower case. -/
def lower (t : Text) : String := Text.asString (t.map Char.toLower)

/-- A language: two to eight letters, but not four. -/
def readLanguage? (t : Text) : Option String :=
  if 2 ≤ t.length && t.length ≤ 8 && t.length != 4 && t.all isLetter then some (lower t) else none

/-- A script: four letters, the first a capital. -/
def readScript? : Text → Option String
  | c :: t =>
    if t.length == 3 && (c :: t).all isLetter then
      some (Text.asString (c.toUpper :: t.map Char.toLower))
    else none
  | [] => none

/-- A region: two letters in upper case, or three digits. -/
def readRegion? (t : Text) : Option String :=
  if t.length == 2 && t.all isLetter then some (Text.asString (t.map Char.toUpper))
  else if t.length == 3 && t.all Char.isDigit then some (Text.asString t)
  else none

/-- Whether a character is one of ASCII, but not the character zero. -/
def isAsciiCharacter (c : Char) : Bool := 0 < c.toNat && c.toNat < 0x80

/-- Whether a text of four characters is a variant: it starts with a digit, or what follows the
first character is letters and digits. Nothing is asked of the other characters. -/
def isShortVariant : Text → Bool
  | c :: t => (c :: t).all isAsciiCharacter && (c.isDigit || t.all isLetterOrDigit)
  | [] => false

/-- A variant: five to eight letters or digits, or a short one of four characters. -/
def readVariant? (t : Text) : Option String :=
  if t.length == 4 && isShortVariant t
      || 5 ≤ t.length && t.length ≤ 8 && t.all isLetterOrDigit then some (lower t)
  else none

/-- Takes the first subtag, if `read?` accepts it. -/
def takeSubtag (read? : Text → Option String) : List Text → Option String × List Text
  | t :: ts => match read? t with
    | some s => (some s, ts)
    | none => (none, t :: ts)
  | [] => (none, [])

/-- Adds a variant to variants in ascending order. -/
def insertVariant (v : String) : List String → List String
  | [] => [v]
  | w :: ws => if v < w then v :: w :: ws else if v = w then w :: ws else w :: insertVariant v ws

/-- The locale that a tag names. -/
def read (t : Text) : Except LocaleFault Locale :=
  match subtags t.trim with
  | [] => .error ⟨t, .language⟩
  | first :: rest =>
    match readLanguage? first with
    | none => .error ⟨t, .language⟩
    | some language =>
      let (script, rest) := takeSubtag readScript? rest
      let (region, rest) := takeSubtag readRegion? rest
      match rest.mapM readVariant? with
      | none => .error ⟨t, .subtag⟩
      | some variants => .ok ⟨language, script, region, variants.foldr insertVariant []⟩

end Locale
end StepMatch
