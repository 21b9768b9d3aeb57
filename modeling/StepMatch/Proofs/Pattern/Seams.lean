import StepMatch.Proofs.Pattern.Brackets

/-!
# Seams between shapes

Two patterns merge by their texts. Two shapes merge here by what they are, and the text of the
outcome is the one that the merge of their texts gives.
-/

namespace StepMatch.Pattern

/-- A group that closes with blanks, with these made optional. -/
def Group.relax? : Group → Option Group
  | .gap .blanks => some (.gap .slack)
  | .text lead first more .blanks => some (.text lead first more .slack)
  | _ => none

/-- A row that closes with a group that closes with blanks, with these made optional. -/
def relaxRow? (ps : List Part) : Option (List Part) :=
  match ps.getLast? with
  | some (.group g) => g.relax?.map fun g => ps.dropLast ++ [.group g]
  | _ => none

/-- The group of a row that is an optional group and nothing else. -/
def loneOptional? : List Part → Option Group
  | [.optional g] => some g
  | _ => none

/-- The group of a row that is an optional group and blanks after it. -/
def gapped? : List Part → Option Group
  | [.optional g, .group (.gap .blanks)] => some g
  | _ => none

/-- A row that opens with a group of words with blanks in front, without these. -/
def padded? : List Part → Option (List Part)
  | .group (.text true first more tail) :: ps =>
    some (.group (.text false first more tail) :: ps)
  | .optional (.text true first more tail) :: ps =>
    some (.optional (.text false first more tail) :: ps)
  | _ => none

/-- One row for two neighbours that keep the white space of their seam, but for an optional group
that takes in the blanks after it. -/
def absorbRow (left right : List Part) : List Part :=
  match loneOptional? left, padded? right with
  | some g, some right => .absorbed g :: right
  | _, _ => left ++ right

/-- One row for two neighbours; `optional?` is the group of the right one if it is to count as
optional, and `wildcard` says whether it is a wildcard. -/
def mergeRow (left right : List Part) (optional? : Option Group) (wildcard : Bool) : List Part :=
  match optional? with
  | some h =>
    match gapped? left, relaxRow? left with
    | some g, _ => [.optional (.folded g h)]
    | none, some left => left ++ [.spaced h]
    | none, none => absorbRow left right
  | none =>
    match relaxRow? left, wildcard with
    | some left, true => left ++ right
    | _, _ => absorbRow left right

/-- A row that opens with a group, optional or not; there may be one in front that takes the
blanks of words in. -/
def IsProper : List Part → Prop
  | .group _ :: _ | .optional _ :: _ => True
  | .absorbed _ :: .group (.text ..) :: _ | .absorbed _ :: .optional (.text ..) :: _ => True
  | _ => False

variable {t u : Text} {ps qs : List Part}

theorem IsProper.ne_nil (h : IsProper ps) : ps ≠ [] := by
  rintro rfl
  exact h

theorem withoutEnding?_eq_some_iff {ending : Text} :
    t.withoutEnding? ending = some u ↔ t = u ++ ending := by
  rw [Text.withoutEnding?, List.isSuffixOf?_eq_some_iff_append_eq, eq_comm]

theorem withoutEnding?_append (u ending : Text) : (u ++ ending).withoutEnding? ending = some u :=
  withoutEnding?_eq_some_iff.2 rfl

theorem withoutEnding?_eq_none {ending : Text} (h : ¬ ending <:+ t) :
    t.withoutEnding? ending = none := by
  rw [Option.eq_none_iff_forall_ne_some]
  intro u e
  exact h ⟨u, (withoutEnding?_eq_some_iff.1 e).symm⟩

theorem withoutOpening?_eq_some_iff {opening : Text} :
    t.withoutOpening? opening = some u ↔ t = opening ++ u := by
  rw [Text.withoutOpening?, List.isPrefixOf?_eq_some_iff_append_eq, eq_comm]

/-- Literal text never ends like blanks: a plus sign that stands for itself has a backslash in
front. -/
theorem not_blanks_suffix_escape {w : Text} (ne : w ≠ []) :
    ¬ Regex.blanks <:+ t ++ Regex.escape w := by
  obtain ⟨w, c, rfl⟩ := (List.eq_nil_or_concat w).resolve_left ne
  rw [← List.reverse_prefix, List.concat_eq_append, Regex.escape, List.flatMap_append,
    List.flatMap_singleton, Regex.escapeChar]
  split
  · simp [Regex.blanks]
  · rename_i h
    have : '+' ≠ c := by
      rintro rfl
      exact h rfl
    simp [Regex.blanks, this]

/-- Whether a text ends with no plus sign. -/
def NoPlus (t : Text) : Prop := t.getLast? ≠ some '+'

namespace NoPlus

theorem append (h : NoPlus t) (h' : NoPlus u) : NoPlus (t ++ u) := by
  rw [NoPlus, List.getLast?_append]
  cases e : u.getLast? with
  | none => exact h
  | some c => rwa [NoPlus, e] at h'

theorem prepend (t : Text) (h : NoPlus u) (ne : u ≠ []) : NoPlus (t ++ u) := by
  rwa [NoPlus, List.getLast?_append_of_ne_nil _ ne]

theorem close (t : Text) {c : Char} (h : c ≠ '+') : NoPlus (t ++ [c]) := by
  simpa [NoPlus] using h

theorem part (p : Part) : NoPlus p.write := by
  cases p with
  | group g => rw [Part.write, g.write_eq]; exact close _ (by decide)
  | optional g => exact close g.write (by decide)
  | spaced g => exact close (Regex.grouped (Regex.blanks ++ g.write)) (by decide)
  | absorbed g => exact close (Regex.grouped (g.write ++ Regex.blanks)) (by decide)

theorem row (ps : List Part) : NoPlus (writeRow ps) := by
  induction ps with
  | nil => simp [NoPlus, writeRow]
  | cons p ps ih => exact (part p).append ih

theorem others (rest : List (List Part)) : NoPlus (writeOthers rest) := by
  induction rest with
  | nil => simp [NoPlus, writeOthers]
  | cons ps rest ih => exact ((close [] (c := '|') (by decide)).append (row ps)).append ih

theorem not_blanks_suffix (h : NoPlus t) : ¬ Regex.blanks <:+ t := by
  rintro ⟨u, rfl⟩
  simp [NoPlus, Regex.blanks] at h

end NoPlus

/-- What stands in front of the bracket that closes a group ends with blanks only if the group
does. -/
theorem not_blanks_suffix_inside {g : Group} (opening : NoPlus t) (h : g.relax? = none) :
    ¬ Regex.blanks <:+ t ++ g.inside := by
  have slack : NoPlus (Space.slack.write) := .close ['\\', 's'] (by decide)
  cases g with
  | gap s =>
    rw [Group.inside]
    cases s with
    | none => simpa [Space.write] using opening.not_blanks_suffix
    | slack => exact (slack.prepend t (by decide)).not_blanks_suffix
    | blanks => simp [Group.relax?] at h
  | text lead first more tail =>
    rw [Group.inside, ← List.append_assoc]
    cases tail with
    | none =>
      rw [Space.write, List.append_nil, writeWords]
      obtain rfl | ⟨more, w, rfl⟩ := List.eq_nil_or_concat more
      · rw [List.flatMap_nil, List.append_nil, ← List.append_assoc]
        exact not_blanks_suffix_escape first.ne
      · rw [List.concat_eq_append, List.flatMap_append, List.flatMap_singleton]
        simp only [← List.append_assoc]
        exact not_blanks_suffix_escape w.ne
    | slack => exact (slack.prepend _ (by decide)).not_blanks_suffix
    | blanks => simp [Group.relax?] at h
  | anyText => exact (opening.append (.close ['.'] (by decide))).not_blanks_suffix
  | choice first others =>
    exact (opening.append ((NoPlus.row first).append (.others others))).not_blanks_suffix
  | bare first parts =>
    exact (opening.append ((NoPlus.close ['?'] (c := ':') (by decide)).append
      ((NoPlus.part first).append (.row parts)))).not_blanks_suffix
  | folded first second =>
    have e : t ++ (Group.folded first second).inside = (t ++ '?' :: ':' :: (first.write ++
        (Regex.grouped (Regex.blanks ++ second.write) ++ ['?']) ++ ['|'])) ++ second.write := by
      rw [Group.inside]
      simp only [List.append_assoc, List.cons_append, List.nil_append]
    rw [e]
    exact ((NoPlus.part (.group second)).prepend _
      (by rw [Part.write, second.write_eq]; simp)).not_blanks_suffix

theorem Group.relax?_cases {g g' : Group} (h : g.relax? = some g') :
    (g = .gap .blanks ∧ g' = .gap .slack) ∨ ∃ lead first more,
      g = .text lead first more .blanks ∧ g' = .text lead first more .slack := by
  rw [relax?.eq_def] at h
  split at h
  · exact .inl ⟨rfl, (Option.some.inj h).symm⟩
  · exact .inr ⟨_, _, _, rfl, (Option.some.inj h).symm⟩
  · cases h

theorem Group.write_relax? {g g' : Group} (h : g.relax? = some g') :
    ∃ u, g.write = u ++ blankTail ∧ g'.write = u ++ slackTail := by
  obtain ⟨rfl, rfl⟩ | ⟨lead, first, more, rfl, rfl⟩ := relax?_cases h
  · exact ⟨['('], rfl, rfl⟩
  · refine ⟨'(' :: ((Space.ofLead lead).write ++ writeWords first more), ?_, ?_⟩ <;>
      simp [write, Space.write, Regex.blanks, blankTail, slackTail]

theorem relaxRow?_eq_some_iff : relaxRow? ps = some qs ↔ ∃ row g g',
    g.relax? = some g' ∧ ps = row ++ [.group g] ∧ qs = row ++ [.group g'] := by
  constructor
  · intro h
    obtain rfl | ⟨row, p, rfl⟩ := List.eq_nil_or_concat ps
    · simp [relaxRow?] at h
    · rw [relaxRow?, List.concat_eq_append, List.getLast?_concat] at h
      split at h
      · rename_i g e
        obtain rfl := Option.some.inj e
        obtain ⟨g', relaxed, rfl⟩ := Option.map_eq_some_iff.1 h
        exact ⟨row, g, g', relaxed, by simp, by simp⟩
      · cases h
  · rintro ⟨row, g, g', relaxed, rfl, rfl⟩
    simp [relaxRow?, relaxed]

theorem writeRow_concat (row : List Part) (p : Part) :
    writeRow (row ++ [p]) = writeRow row ++ p.write := by
  rw [writeRow_append, writeRow, writeRow, List.append_nil]

/-- A row closes with blanks exactly when its text does. -/
theorem withoutEnding?_blankTail (ps : List Part) :
    ((writeRow ps).withoutEnding? blankTail).map (· ++ slackTail) = (relaxRow? ps).map writeRow := by
  cases h : relaxRow? ps with
  | some qs =>
    obtain ⟨row, g, g', relaxed, rfl, rfl⟩ := relaxRow?_eq_some_iff.1 h
    obtain ⟨u, e, e'⟩ := Group.write_relax? relaxed
    rw [Option.map_some, writeRow_concat, writeRow_concat, Part.write, Part.write, e, e',
      ← List.append_assoc, withoutEnding?_append, Option.map_some, List.append_assoc]
  | none =>
    rw [Option.map_none, Option.map_eq_none_iff]
    refine withoutEnding?_eq_none fun suffix => ?_
    obtain rfl | ⟨row, p, rfl⟩ := List.eq_nil_or_concat ps
    · simp [writeRow, blankTail] at suffix
    · rw [List.concat_eq_append] at *
      rw [writeRow_concat] at suffix
      cases p with
      | group g =>
        rw [Part.write, g.write_eq] at suffix
        have inner : Regex.blanks <:+ writeRow row ++ ['('] ++ g.inside := by
          obtain ⟨u, e⟩ := suffix
          refine ⟨u, ?_⟩
          have e' : u ++ Regex.blanks ++ [')'] = writeRow row ++ ['('] ++ g.inside ++ [')'] := by
            simpa [blankTail, Regex.blanks] using e
          exact List.append_inj_left' e' rfl
        refine not_blanks_suffix_inside (.close _ (by decide)) ?_ inner
        rw [Option.eq_none_iff_forall_ne_some]
        intro g' relaxed
        rw [relaxRow?_eq_some_iff.2 ⟨row, g, g', relaxed, rfl, rfl⟩] at h
        cases h
      | optional g | spaced g | absorbed g =>
        rw [Part.write, ← List.append_assoc, ← List.reverse_prefix] at suffix
        simp [blankTail] at suffix

theorem write_ne_nil (p : Part) : p.write ≠ [] := by
  cases p with
  | group g => rw [Part.write, g.write_eq]; simp
  | optional g | spaced g | absorbed g => simp [Part.write]

/-- A part is a single group only as a group, with nothing after it. -/
theorem isSingleGroup_part (p : Part) (u : Text) :
    isSingleGroup (p.write ++ u) ↔ (∃ g, p = .group g) ∧ u = [] := by
  have group : ∀ (t v : Text), Balanced t →
      (isSingleGroup ('(' :: t ++ [')'] ++ v) ↔ v = []) := fun t v h => by
    rw [List.append_assoc, List.singleton_append, h.isSingleGroup, List.isEmpty_iff]
  cases p with
  | group g =>
    rw [Part.write, g.write_eq, group _ _ (balanced_inside g)]
    simp
  | optional g =>
    rw [Part.write, g.write_eq, List.append_assoc, group _ _ (balanced_inside g)]
    simp
  | spaced g =>
    have h := balanced_part (.group g)
    rw [Part.write] at h
    rw [Part.write, List.append_assoc]
    have e := group ('?' :: ':' :: (Regex.blanks ++ g.write)) (['?'] ++ u)
      ((balanced_question.append (.single (c := ':') (by decide) (by decide) (by decide))).append
        (balanced_blanks.append h))
    simpa [Regex.grouped] using e
  | absorbed g =>
    have h := balanced_part (.group g)
    rw [Part.write] at h
    rw [Part.write, List.append_assoc]
    have e := group ('?' :: ':' :: (g.write ++ Regex.blanks)) (['?'] ++ u)
      ((balanced_question.append (.single (c := ':') (by decide) (by decide) (by decide))).append
        (h.append balanced_blanks))
    simpa [Regex.grouped] using e

theorem isSingleGroup_row : isSingleGroup (writeRow ps) ↔ ∃ g, ps = [.group g] := by
  obtain _ | ⟨p, ps⟩ := ps
  · simp [writeRow, isSingleGroup]
  · rw [writeRow, isSingleGroup_part]
    obtain _ | ⟨q, qs⟩ := ps
    · simp [writeRow]
    · simp [writeRow, write_ne_nil]

theorem loneOptional?_eq_some_iff {g : Group} : loneOptional? ps = some g ↔ ps = [.optional g] := by
  rw [loneOptional?.eq_def]
  split <;> simp_all

/-- A row is an optional group exactly when its text is. -/
theorem optionalBody?_row (proper : IsProper ps) :
    optionalBody? (writeRow ps) = (loneOptional? ps).map Group.write := by
  cases h : loneOptional? ps with
  | some g =>
    obtain rfl := loneOptional?_eq_some_iff.1 h
    have single : isSingleGroup g.write := by
      have := (isSingleGroup_part (.group g) []).2 ⟨⟨g, rfl⟩, rfl⟩
      rwa [List.append_nil, Part.write] at this
    rw [writeRow, writeRow, Part.write, List.append_nil, optionalBody?, withoutEnding?_append,
      Option.filter_some, if_pos single, Option.map_some]
  | none =>
    rw [Option.map_none, Option.eq_none_iff_forall_ne_some]
    intro body found
    rw [optionalBody?, Option.filter_eq_some_iff, withoutEnding?_eq_some_iff] at found
    obtain ⟨text, single⟩ := found
    obtain ⟨row, p, rfl⟩ := (List.eq_nil_or_concat ps).resolve_left proper.ne_nil
    rw [List.concat_eq_append] at *
    have last : ∀ v : Text, p.write = v ++ ['?'] → body = writeRow row ++ v := fun v e => by
      rw [writeRow_append, writeRow, writeRow, List.append_nil, e, ← List.append_assoc] at text
      exact (List.append_inj_left' text rfl).symm
    have lone : ∀ v : Text, v ≠ [] → body = writeRow row ++ v → row = [] := by
      rintro v ne rfl
      obtain _ | ⟨q, row⟩ := row
      · rfl
      · rw [writeRow, List.append_assoc, isSingleGroup_part] at single
        simp [ne] at single
    cases p with
    | group g =>
      rw [writeRow_append, writeRow, writeRow, Part.write, g.write_eq] at text
      have := congrArg List.reverse text
      simp at this
    | optional g =>
      have e := last g.write rfl
      obtain rfl := lone g.write (write_ne_nil (.group g)) e
      simp [loneOptional?] at h
    | spaced g =>
      have e := last _ rfl
      obtain rfl := lone _ (by simp [Regex.grouped]) e
      exact proper.elim
    | absorbed g =>
      have e := last _ rfl
      obtain rfl := lone _ (by simp [Regex.grouped]) e
      exact proper.elim

theorem gapped?_eq_some_iff {g : Group} :
    gapped? ps = some g ↔ ps = [.optional g, .group (.gap .blanks)] := by
  rw [gapped?.eq_def]
  split <;> simp_all

/-- A bracket that ends literal text has a backslash in front. -/
theorem slash_of_escape_bracket {w : Text} (ne : w ≠ []) (h : t ++ ['('] = u ++ Regex.escape w) :
    ∃ v, t = v ++ ['\\'] := by
  obtain ⟨w, c, rfl⟩ := (List.eq_nil_or_concat w).resolve_left ne
  rw [List.concat_eq_append, Regex.escape, List.flatMap_append, List.flatMap_singleton,
    Regex.escapeChar, ← List.append_assoc] at h
  split at h
  · exact ⟨_, List.append_inj_left' (h.trans (List.append_assoc _ ['\\'] [c]).symm) rfl⟩
  · rename_i plain
    obtain rfl := List.cons.inj (List.append_inj_right' h rfl) |>.1
    exact absurd rfl plain

/-- So it does not close blanks alone. -/
theorem slash_of_words {first : Word} {more : List Word}
    (h : t ++ ['('] = u ++ writeWords first more) : ∃ v, t = v ++ ['\\'] := by
  rw [writeWords] at h
  obtain rfl | ⟨more, w, rfl⟩ := List.eq_nil_or_concat more
  · rw [List.flatMap_nil, List.append_nil] at h
    exact slash_of_escape_bracket first.ne h
  · rw [List.concat_eq_append, List.flatMap_append, List.flatMap_singleton] at h
    simp only [← List.append_assoc] at h
    exact slash_of_escape_bracket w.ne h

theorem IsProper.of_gap {s : Space} (h : IsProper (ps ++ [.group (.gap s)])) :
    ps = [] ∨ IsProper ps := by
  obtain _ | ⟨p, ps⟩ := ps
  · exact .inl rfl
  · refine .inr ?_
    cases p with
    | group | optional => trivial
    | spaced => exact h
    | absorbed =>
      obtain _ | ⟨q, ps⟩ := ps
      · exact h
      · obtain (_ | _ | _ | _) | (_ | _ | _ | _) | _ | _ := q <;> exact h

/-- A row is an optional group with blanks after it exactly when its text is. -/
theorem optionalBody?_gap (proper : IsProper ps) :
    ((writeRow ps).withoutEnding? blankGroup).bind optionalBody? =
      (gapped? ps).map Group.write := by
  cases h : gapped? ps with
  | some g =>
    obtain rfl := gapped?_eq_some_iff.1 h
    have e : writeRow [.optional g, .group (.gap .blanks)] =
        writeRow [.optional g] ++ blankGroup := by
      simp [writeRow, Part.write, Group.write, Space.write, blankGroup, Regex.blanks]
    rw [e, withoutEnding?_append, Option.bind_some, optionalBody?_row (by trivial)]
    rfl
  | none =>
    rw [Option.map_none, Option.bind_eq_none_iff]
    intro stem found
    rw [withoutEnding?_eq_some_iff] at found
    have tail : (writeRow ps).withoutEnding? blankTail = some (stem ++ ['(']) := by
      rw [withoutEnding?_eq_some_iff, found, List.append_assoc]
      rfl
    have relaxed := withoutEnding?_blankTail ps
    rw [tail, Option.map_some] at relaxed
    obtain ⟨qs, hqs, -⟩ := Option.map_eq_some_iff.1 relaxed.symm
    obtain ⟨row, g, g', ends, rfl, -⟩ := relaxRow?_eq_some_iff.1 hqs
    rw [writeRow_concat] at found
    obtain ⟨rfl, -⟩ | ⟨lead, first, more, rfl, -⟩ := Group.relax?_cases ends
    · obtain rfl := List.append_inj_left' found rfl
      obtain rfl | proper := proper.of_gap
      · rfl
      · rw [optionalBody?_row proper, Option.map_eq_none_iff, Option.eq_none_iff_forall_ne_some]
        intro g lone
        obtain rfl := loneOptional?_eq_some_iff.1 lone
        cases h
    · have front : stem ++ ['('] =
          writeRow row ++ '(' :: (Space.ofLead lead).write ++ writeWords first more := by
        have e : writeRow row ++ '(' :: (Space.ofLead lead).write ++ writeWords first more ++
            blankTail = stem ++ ['('] ++ blankTail := by
          simpa [Part.write, Group.write, blankGroup, blankTail, Space.write, Regex.blanks]
            using found
        exact (List.append_inj_left' e rfl).symm
      obtain ⟨v, rfl⟩ := slash_of_words front
      rw [optionalBody?, withoutEnding?_eq_none (by
        rw [← List.reverse_prefix]
        simp)]
      rfl

theorem head?_part (p : Part) : p.write.head? = some '(' := by
  cases p with
  | group g | optional g => rw [Part.write, g.write_eq]; rfl
  | spaced g | absorbed g => rfl

/-- A word opens neither like blanks nor with a bracket that closes a group. -/
theorem head_words (first : Word) (more : List Word) (t : Text) :
    (writeWords first more ++ t).head? ≠ some ')' ∧
      ∀ u, writeWords first more ++ t ≠ Regex.blanks ++ u := by
  obtain ⟨_ | ⟨c, w⟩, ne, ink⟩ := first
  · exact absurd rfl ne
  · rw [writeWords, Regex.escape, List.flatMap_cons, Regex.escapeChar]
    split
    · refine ⟨by simp, fun u e => ?_⟩
      obtain rfl : c = 's' := by
        have := congrArg (fun t => t[1]?) e
        simpa [Regex.blanks] using this
      contradiction
    · rename_i plain
      refine ⟨fun e => ?_, fun u e => ?_⟩
      · obtain rfl : c = ')' := by simpa using e
        exact plain rfl
      · obtain rfl : c = '\\' := by
          have := congrArg List.head? e
          simpa [Regex.blanks] using this
        exact plain rfl

theorem padded?_eq_some_iff : padded? ps = some qs ↔ ∃ first more tail rest,
    (ps = .group (.text true first more tail) :: rest ∧
      qs = .group (.text false first more tail) :: rest) ∨
    (ps = .optional (.text true first more tail) :: rest ∧
      qs = .optional (.text false first more tail) :: rest) := by
  constructor
  · intro h
    rw [padded?.eq_def] at h
    split at h
    · exact ⟨_, _, _, _, .inl ⟨rfl, (Option.some.inj h).symm⟩⟩
    · exact ⟨_, _, _, _, .inr ⟨rfl, (Option.some.inj h).symm⟩⟩
    · cases h
  · rintro ⟨first, more, tail, rest, ⟨rfl, rfl⟩ | ⟨rfl, rfl⟩⟩ <;> rfl

/-- What stands in a group opens with blanks and more only if it is words with blanks in front. -/
theorem blanks_of_inside {g : Group} (h : g.inside ++ ')' :: t = Regex.blanks ++ u)
    (more : u.head? ≠ some ')') : ∃ first more tail, g = .text true first more tail := by
  have head : g.inside.head? = some '\\' := by
    cases e : g.inside with
    | nil => simp [e, Regex.blanks] at h
    | cons c w => simpa [e, Regex.blanks] using congrArg List.head? h
  cases g with
  | gap s =>
    cases s with
    | none => cases head
    | slack => simp [Group.inside, Space.write, Regex.blanks] at h
    | blanks =>
      obtain rfl : ')' :: t = u := List.append_cancel_left h
      exact absurd rfl more
  | text lead first more tail =>
    cases lead with
    | true => exact ⟨first, more, tail, rfl⟩
    | false =>
      rw [Group.inside, Space.ofLead, if_neg (by decide), Space.write, List.nil_append,
        List.append_assoc] at h
      exact absurd h ((head_words first more _).2 u)
  | anyText | bare | folded => cases head
  | choice first others =>
    rw [Group.inside] at head
    obtain _ | ⟨p, ps⟩ := first
    · obtain _ | ⟨qs, rest⟩ := others <;> cases head
    · rw [writeRow, List.append_assoc, List.head?_append, head?_part] at head
      cases head

/-- A row opens with blanks in front of words exactly when its text does. -/
theorem paddedRest?_row (ps : List Part) :
    (paddedRest? (writeRow ps)).map ('(' :: ·) = (padded? ps).map writeRow := by
  cases h : padded? ps with
  | some qs =>
    have text : ∀ (first : Word) (more : List Word) (t : Text),
        paddedRest? ('(' :: (Regex.blanks ++ (writeWords first more ++ t))) =
          some (writeWords first more ++ t) := fun first more t => by
      have e : Text.withoutOpening? ('(' :: (Regex.blanks ++ (writeWords first more ++ t)))
          blankHead = some (writeWords first more ++ t) := withoutOpening?_eq_some_iff.2 rfl
      rw [paddedRest?, e, Option.filter_some, if_pos]
      simpa using (head_words first more t).1
    obtain ⟨first, more, tail, rest, ⟨rfl, rfl⟩ | ⟨rfl, rfl⟩⟩ := padded?_eq_some_iff.1 h
    all_goals
      simp only [writeRow, Part.write, Group.write, Space.ofLead, if_true, Bool.false_eq_true,
        if_false, Space.write, List.append_assoc, List.cons_append, List.nil_append, text,
        Option.map_some]
  | none =>
    rw [Option.map_none, Option.map_eq_none_iff, Option.eq_none_iff_forall_ne_some]
    intro rest found
    rw [paddedRest?, Option.filter_eq_some_iff, withoutOpening?_eq_some_iff] at found
    obtain ⟨text, more⟩ := found
    have more : rest.head? ≠ some ')' := by simpa using more
    obtain _ | ⟨p, ps⟩ := ps
    · cases text
    · rw [writeRow] at text
      cases p with
      | group g =>
        rw [Part.write, g.write_eq, List.append_assoc] at text
        obtain ⟨_, _, _, rfl⟩ := blanks_of_inside (List.cons.inj text).2 more
        cases h
      | optional g =>
        rw [Part.write, g.write_eq, List.append_assoc, List.append_assoc] at text
        obtain ⟨_, _, _, rfl⟩ := blanks_of_inside (List.cons.inj text).2 more
        cases h
      | spaced g | absorbed g =>
        simp [Part.write, Regex.grouped, blankHead] at text

/-- Two optional groups folded into one, as text and as a part. -/
theorem foldOptional_write (g h : Group) :
    foldOptional g.write h.write = writeRow [.optional (.folded g h)] := by
  have text (first second : Text) : foldOptional first second = ['(', '?', ':'] ++ first ++
      ['(', '?', ':', '\\', 's', '+'] ++ second ++ [')', '?', '|'] ++ second ++ [')', '?'] := rfl
  simp [text, writeRow, Part.write, Group.write, Regex.grouped, Regex.blanks]

/-- An optional group with blanks of its own, as text and as a part. -/
theorem spacedOptional_write (g : Group) : spacedOptional g.write = writeRow [.spaced g] := by
  have text (inner : Text) : spacedOptional inner =
      ['(', '?', ':', '\\', 's', '+'] ++ inner ++ [')', '?'] := rfl
  simp [text, writeRow, Part.write, Regex.grouped, Regex.blanks]

/-- What a pattern on the right says about itself agrees with its shape. -/
structure Shows (p : Pattern) (ps : List Part) (optional? : Option Group) : Prop where
  regex : p.regex = writeRow ps
  isOptional : p.isOptional = optional?.isSome
  lone : ∀ g, optional? = some g → ps = [.optional g]

/-- The text of merged shapes is the merge of their texts. -/
theorem mergeRegex_eq {left right : Pattern} {optional? : Option Group} (proper : IsProper ps)
    (hl : left.regex = writeRow ps) (hr : Shows right qs optional?) :
    mergeRegex left right = writeRow (mergeRow ps qs optional? (right.literal == ['*'])) := by
  have gap := optionalBody?_gap proper
  have lone := optionalBody?_row proper
  have tail := withoutEnding?_blankTail ps
  have padded := paddedRest?_row qs
  rw [← hl] at gap lone tail
  rw [← hr.regex] at padded
  have plain : absorbRegex left.regex right.regex = writeRow (absorbRow ps qs) := by
    rw [absorbRegex, lone, absorbRow]
    cases loneOptional? ps with
    | none => rw [writeRow_append, ← hl, ← hr.regex]; rfl
    | some g =>
      cases hq : padded? qs with
      | none =>
        rw [hq, Option.map_none, Option.map_eq_none_iff] at padded
        rw [padded, writeRow_append, ← hl, ← hr.regex]
        rfl
      | some qs' =>
        rw [hq, Option.map_some, Option.map_eq_some_iff] at padded
        obtain ⟨rest, e, e'⟩ := padded
        simp [e, writeRow, ← e', absorbBlanks, Part.write, Regex.grouped, Regex.blanks]
  have relaxed : ∀ qs, relaxRow? ps = some qs →
      (left.regex.withoutEnding? blankTail).isSome ∧ relaxTail left.regex = writeRow qs := by
    intro qs h
    rw [h, Option.map_some, Option.map_eq_some_iff] at tail
    obtain ⟨stem, e, e'⟩ := tail
    rw [relaxTail, e, ← e']
    exact ⟨rfl, rfl⟩
  have kept : relaxRow? ps = none → (left.regex.withoutEnding? blankTail).isSome = false := by
    intro h
    rw [h, Option.map_none, Option.map_eq_none_iff] at tail
    rw [tail]
    rfl
  rw [mergeRegex, gap, hr.isOptional]
  cases optional? with
  | none =>
    cases h : relaxRow? ps with
    | none =>
      simp only [mergeRow, h, kept h, Option.isSome_none, Bool.false_and, Bool.false_eq_true,
        if_false]
      cases gapped? ps <;> exact plain
    | some row =>
      obtain ⟨ends, e⟩ := relaxed row h
      cases w : right.literal == ['*']
      · simp only [mergeRow, h, Option.isSome_none, Bool.and_false, Bool.false_eq_true, if_false]
        cases gapped? ps <;> exact plain
      · simp [mergeRow, h, ends, e, writeRow_append, ← hr.regex]
  | some second =>
    have body : right.regex.dropLast = second.write := by
      rw [hr.regex, hr.lone second rfl, writeRow, writeRow, Part.write, List.append_nil,
        List.dropLast_concat]
    cases hg : gapped? ps with
    | some first =>
      simp [mergeRow, hg, body, foldOptional_write]
    | none =>
      cases h : relaxRow? ps with
      | none =>
        simp only [mergeRow, hg, h, kept h, Option.map_none, Bool.false_and, Bool.false_eq_true,
          if_false]
        exact plain
      | some row =>
        obtain ⟨ends, e⟩ := relaxed row h
        simp [mergeRow, hg, h, ends, e, writeRow_append, body, spacedOptional_write]

end StepMatch.Pattern
