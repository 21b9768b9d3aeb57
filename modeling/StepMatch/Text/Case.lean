import StepMatch.Text.Blank

/-!
# Letter case

Which letters differ only in case, and what a letter is in lower case. The tables cover ASCII and
Latin-1, whose letters are the ones that names of months are written with, together with the
characters outside these blocks that fold to one of them.
-/

namespace StepMatch

/-- The lower case of a letter. -/
def toLowerCase (c : Char) : Char :=
  let n := c.toNat
  if (0x41 ≤ n && n ≤ 0x5A) || (0xC0 ≤ n && n ≤ 0xDE && n != 0xD7) then Char.ofNat (n + 32)
  else if n == 0x178 then Char.ofNat 0xFF
  else if n == 0x1E9E then Char.ofNat 0xDF
  else if n == 0x212A then 'k'
  else if n == 0x212B then Char.ofNat 0xE5
  else c

/-- The form of a character that is the same for all its cases. The long s, a lower case letter
itself, counts as an s. -/
def foldCase (c : Char) : Char :=
  if c.toNat == 0x17F then 's' else toLowerCase c

/-- Whether a letter of ASCII or Latin-1 has a second case there. -/
def hasUpperCase (c : Char) : Bool :=
  let n := c.toNat
  (0x61 ≤ n && n ≤ 0x7A) || (0xE0 ≤ n && n ≤ 0xFE && n != 0xF7)

/-- The characters that differ from `c` at most in case. -/
def caseVariants (c : Char) : List Char :=
  let lower := foldCase c
  let upper := if hasUpperCase lower then [Char.ofNat (lower.toNat - 32)] else []
  let others := match lower.toNat with
    | 0x6B => [Char.ofNat 0x212A]
    | 0x73 => [Char.ofNat 0x17F]
    | 0xDF => [Char.ofNat 0x1E9E]
    | 0xE5 => [Char.ofNat 0x212B]
    | 0xFF => [Char.ofNat 0x178]
    | _ => []
  lower :: upper ++ others

/-- The text in lower case. -/
def Text.lower (t : Text) : Text := t.map toLowerCase

end StepMatch
