import StepMatch.Proofs.Regex.Groups
import StepMatch.Pattern.Basic

/-!
# The shape of a pattern

The regex of a pattern is text, but not any text: it is a row of groups, some of them optional, and
some with blanks that belong to them. Here that structure is a tree, with the text that it stands
for and the language that this text writes.
-/

namespace StepMatch.Pattern

open Regex (spaces line Writes WritesBody WritesAtom)

/-- A run of characters without blanks. -/
structure Word where
  text : Text
  ne : text ≠ []
  ink : ∀ c ∈ text, isInk c
deriving DecidableEq

/-- Whether blanks are called for at a place. -/
inductive Space where
  /-- There are none. -/
  | none
  /-- There may be some. -/
  | slack
  /-- There is at least one. -/
  | blanks
deriving DecidableEq

mutual

/-- A single group. -/
inductive Group where
  /-- Blanks alone. -/
  | gap (s : Space)
  /-- Words with blanks between them; `lead` says whether there are some in front. -/
  | text (lead : Bool) (first : Word) (more : List Word) (tail : Space)
  /-- Any text within a line. -/
  | anyText
  /-- Alternatives. -/
  | choice (first : List Part) (others : List (List Part))
  /-- A row of parts, kept together. -/
  | bare (first : Part) (parts : List Part)
  /-- The first with the second after some blanks or without it, or the second alone. -/
  | folded (first second : Group)

/-- A part of a pattern. -/
inductive Part where
  | group (g : Group)
  /-- A group that may be left out. -/
  | optional (g : Group)
  /-- A group that may be left out with the blanks in front of it. -/
  | spaced (g : Group)
  /-- A group that may be left out with the blanks after it. -/
  | absorbed (g : Group)

end

/-- The regex of blanks. -/
def Space.write : Space → Text
  | .none => []
  | .slack => ['\\', 's', '*']
  | .blanks => Regex.blanks

/-- The blanks in front of literal text. -/
def Space.ofLead (lead : Bool) : Space := if lead then .blanks else .none

/-- The regex of a word and more words with blanks in front of each. -/
def writeWords (first : Word) (more : List Word) : Text :=
  Regex.escape first.text ++ more.flatMap fun w => Regex.blanks ++ Regex.escape w.text

mutual

/-- The regex of a group. -/
def Group.write : Group → Text
  | .gap s => '(' :: s.write ++ [')']
  | .text lead first more tail =>
    '(' :: ((Space.ofLead lead).write ++ writeWords first more ++ tail.write) ++ [')']
  | .anyText => ['(', '.', '*', ')']
  | .choice first others => '(' :: (writeRow first ++ writeOthers others) ++ [')']
  | .bare first parts => Regex.grouped (first.write ++ writeRow parts)
  | .folded g h =>
    Regex.grouped (g.write ++ (Regex.grouped (Regex.blanks ++ h.write) ++ ['?']) ++ '|' :: h.write)

/-- The regex of a part. -/
def Part.write : Part → Text
  | .group g => g.write
  | .optional g => g.write ++ ['?']
  | .spaced g => Regex.grouped (Regex.blanks ++ g.write) ++ ['?']
  | .absorbed g => Regex.grouped (g.write ++ Regex.blanks) ++ ['?']

/-- The regex of a row of parts. -/
def writeRow : List Part → Text
  | [] => []
  | p :: ps => p.write ++ writeRow ps

/-- The regexes of further alternatives, each with a bar in front. -/
def writeOthers : List (List Part) → Text
  | [] => []
  | ps :: rest => '|' :: writeRow ps ++ writeOthers rest

end

/-- The texts of blanks. -/
def Space.language : Space → TextLanguage
  | .none => 1
  | .slack => Regex.slack
  | .blanks => spaces

/-- The texts of a word and more words with blanks in front of each. -/
def wordsLanguage (first : Word) (more : List Word) : TextLanguage :=
  {first.text} * (more.map fun w => spaces * {w.text}).prod

mutual

/-- The texts of a group. -/
def Group.language : Group → TextLanguage
  | .gap s => s.language
  | .text lead first more tail =>
    (Space.ofLead lead).language * wordsLanguage first more * tail.language
  | .anyText => line
  | .choice first others => rowLanguage first + othersLanguage others
  | .bare first parts => first.language * rowLanguage parts
  | .folded g h => g.language * (1 + spaces * h.language) + h.language

/-- The texts of a part. -/
def Part.language : Part → TextLanguage
  | .group g => g.language
  | .optional g => 1 + g.language
  | .spaced g => 1 + spaces * g.language
  | .absorbed g => 1 + g.language * spaces

/-- The texts of a row of parts. -/
def rowLanguage : List Part → TextLanguage
  | [] => 1
  | p :: ps => p.language * rowLanguage ps

/-- The texts of further alternatives. -/
def othersLanguage : List (List Part) → TextLanguage
  | [] => 0
  | ps :: rest => rowLanguage ps + othersLanguage rest

end

theorem writeRow_append (ps qs : List Part) : writeRow (ps ++ qs) = writeRow ps ++ writeRow qs := by
  induction ps with
  | nil => rfl
  | cons p ps ih => simp [writeRow, ih]

theorem rowLanguage_append (ps qs : List Part) :
    rowLanguage (ps ++ qs) = rowLanguage ps * rowLanguage qs := by
  induction ps with
  | nil => simp [rowLanguage]
  | cons p ps ih => rw [List.cons_append, rowLanguage, ih, rowLanguage, mul_assoc]

theorem writes_space (d : Regex.Dialect) : ∀ s : Space, Writes false d s.write s.language
  | .none => .nil
  | .slack => (Regex.writes_slack d).loosen
  | .blanks => (Regex.writes_blanks d).loosen

theorem writes_words (d : Regex.Dialect) (first : Word) (more : List Word) :
    Writes false d (writeWords first more) (wordsLanguage first more) := by
  refine (Regex.writes_escape d first.ne).loosen.append ?_
  induction more with
  | nil => exact .nil
  | cons w more ih =>
    rw [List.flatMap_cons, List.map_cons, List.prod_cons]
    exact ((Regex.writes_blanks d).append (Regex.writes_escape d w.ne)).loosen.append ih

mutual

/-- The text of a group is one piece, for the texts of the group. -/
theorem writesAtom_group (d : Regex.Dialect) : ∀ g : Group, WritesAtom d g.write g.language
  | .gap s => by
    rw [Group.write, Group.language]
    exact (writes_space d s).body.group
  | .text lead first more tail => by
    rw [Group.write, Group.language]
    exact (((writes_space d (.ofLead lead)).append (writes_words d first more)).append
      (writes_space d tail)).body.group
  | .anyText => by
    rw [Group.write, Group.language]
    exact (Regex.writes_anyText d).loosen.body.group
  | .choice first others => by
    rw [Group.write, Group.language]
    exact (writesBody_others d others (writes_row d first).loosen.body).group
  | .bare first parts => by
    rw [Group.write, Group.language]
    match parts with
    | [] => simpa [writeRow, rowLanguage] using (writes_part d first).body.grouped
    | q :: qs => exact ((writes_part d first).append (writes_row d (q :: qs))).body.grouped
  | .folded g h => by
    rw [Group.write, Group.language]
    have hg : Writes true d g.write g.language := (writesAtom_group d g).writes
    have hh : Writes true d h.write h.language := (writesAtom_group d h).writes
    have spaced : Writes true d (Regex.grouped (Regex.blanks ++ h.write) ++ ['?'])
        (1 + spaces * h.language) := ((Regex.writes_blanks d).append hh).body.grouped.optional
    exact ((hg.append spaced).loosen.body.bar hh.loosen.body).grouped

/-- The text of a part writes the texts of the part. -/
theorem writes_part (d : Regex.Dialect) : ∀ p : Part, Writes true d p.write p.language
  | .group g => by
    rw [Part.write, Part.language]
    exact (writesAtom_group d g).writes
  | .optional g => by
    rw [Part.write, Part.language]
    exact (writesAtom_group d g).optional
  | .spaced g => by
    rw [Part.write, Part.language]
    exact ((Regex.writes_blanks d).append (writesAtom_group d g).writes).body.grouped.optional
  | .absorbed g => by
    rw [Part.write, Part.language]
    exact ((writesAtom_group d g).writes.append (Regex.writes_blanks d)).body.grouped.optional

/-- The text of a row of parts writes their texts, and it is firm unless the row is empty. -/
theorem writes_row (d : Regex.Dialect) : ∀ ps : List Part,
    Writes (!ps.isEmpty) d (writeRow ps) (rowLanguage ps)
  | [] => .nil
  | [p] => by simpa [writeRow, rowLanguage] using writes_part d p
  | p :: q :: qs => by
    rw [writeRow, rowLanguage]
    exact (writes_part d p).append (writes_row d (q :: qs))

/-- Further alternatives after the text of the first ones. -/
theorem writesBody_others (d : Regex.Dialect) : ∀ (rest : List (List Part)) {t : Text}
    {L : TextLanguage}, WritesBody false d t L →
      WritesBody false d (t ++ writeOthers rest) (L + othersLanguage rest)
  | [], t, L, h => by simpa [writeOthers, othersLanguage] using h
  | ps :: rest, t, L, h => by
    rw [writeOthers, othersLanguage, ← List.append_assoc, ← add_assoc]
    exact writesBody_others d rest (h.bar (writes_row d ps).loosen.body)

end

end StepMatch.Pattern
