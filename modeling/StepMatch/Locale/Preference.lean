import StepMatch.Locale.Tag

/-!
# The default locale

Those who name no locale get the one that was chosen last; if none is chosen, the one that the
environment names; if it names none, American English. A name in the environment that is blank or
no tag counts for nothing.
-/

namespace StepMatch

/-- What decides the default locale. -/
structure LocalePreference where
  /-- The locale that was chosen. -/
  chosen : Option Locale := none
  /-- The tag in the environment. -/
  environment : Option Text := none
deriving DecidableEq, Repr

namespace LocalePreference

/-- The locale that the environment names. -/
def fromEnvironment (p : LocalePreference) : Option Locale :=
  p.environment.bind fun t => (Locale.read t).toOption

/-- The default locale. -/
def locale (p : LocalePreference) : Locale :=
  (p.chosen <|> p.fromEnvironment).getD .default

/-- Chooses a default locale. -/
def choose (p : LocalePreference) (l : Locale) : LocalePreference := { p with chosen := some l }

/-- Takes the choice back. -/
def clear (p : LocalePreference) : LocalePreference := { p with chosen := none }

/-- Sets or removes the tag in the environment. -/
def setEnvironment (p : LocalePreference) (t : Option Text) : LocalePreference :=
  { p with environment := t }

end LocalePreference
end StepMatch
