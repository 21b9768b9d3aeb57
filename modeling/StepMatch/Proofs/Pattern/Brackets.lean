import StepMatch.Proofs.Pattern.Shape

/-!
# Brackets in patterns

The seams of patterns are settled by looking at text: whether it is a single group, and how it
opens and closes. In the text of a shape these tests find what the shape says. A bracket or a
quantifier that stands for itself has a backslash in front, and so does not mislead them.
-/

namespace StepMatch.Pattern

/-- Scanning for a closing bracket passes the text without a change of depth. -/
def Balanced (t : Text) : Prop :=
  ∀ depth, 1 ≤ depth → ∀ u, closesAtEnd depth (t ++ u) = closesAtEnd depth u

namespace Balanced

variable {t u : Text}

theorem nil : Balanced [] := fun _ _ _ => rfl

theorem append (h : Balanced t) (h' : Balanced u) : Balanced (t ++ u) := fun depth pos v => by
  rw [List.append_assoc, h depth pos, h' depth pos]

theorem single {c : Char} (slash : c ≠ '\\') (opening : c ≠ '(') (closing : c ≠ ')') :
    Balanced [c] := fun depth _ u => by
  rw [List.singleton_append, closesAtEnd.eq_def]
  split <;> simp_all

theorem escaped (c : Char) : Balanced ['\\', c] := fun _ _ _ => rfl

theorem group (h : Balanced t) : Balanced ('(' :: t ++ [')']) := fun depth pos u => by
  have open' : closesAtEnd depth ('(' :: t ++ [')'] ++ u) =
      closesAtEnd (depth + 1) (t ++ ')' :: u) := by
    simp [closesAtEnd]
  rw [open', h (depth + 1) (Nat.le_add_left 1 depth), closesAtEnd, if_neg (by omega),
    Nat.add_sub_cancel]

/-- A group with something balanced in it is single when nothing follows. -/
theorem isSingleGroup (h : Balanced t) (u : Text) :
    isSingleGroup ('(' :: t ++ ')' :: u) = u.isEmpty := by
  rw [List.cons_append, Pattern.isSingleGroup, h 1 (Nat.le_refl 1), closesAtEnd,
    if_pos (Nat.le_refl 1)]

theorem flatMap {α : Type} {f : α → Text} {l : List α} (h : ∀ a ∈ l, Balanced (f a)) :
    Balanced (l.flatMap f) := by
  induction l with
  | nil => exact nil
  | cons a l ih =>
    rw [List.flatMap_cons]
    exact (h a List.mem_cons_self).append (ih fun b hb => h b (List.mem_cons_of_mem a hb))

end Balanced

theorem balanced_escape (w : Text) : Balanced (Regex.escape w) := by
  refine Balanced.flatMap fun c _ => ?_
  rw [Regex.escapeChar]
  split
  · exact .escaped c
  · rename_i h
    simp only [Regex.isMeta, Bool.not_eq_true, Bool.or_eq_false_iff, beq_eq_false_iff_ne] at h
    exact .single (by tauto) (by tauto) (by tauto)

theorem balanced_blanks : Balanced Regex.blanks :=
  (Balanced.escaped 's').append (.single (by decide) (by decide) (by decide))

theorem balanced_space : ∀ s : Space, Balanced s.write
  | .none => .nil
  | .slack => (Balanced.escaped 's').append (.single (by decide) (by decide) (by decide))
  | .blanks => balanced_blanks

theorem balanced_words (first : Word) (more : List Word) : Balanced (writeWords first more) :=
  (balanced_escape first.text).append
    (.flatMap fun w _ => balanced_blanks.append (balanced_escape w.text))

/-- What stands between the brackets of a group. -/
def Group.inside : Group → Text
  | .gap s => s.write
  | .text lead first more tail =>
    (Space.ofLead lead).write ++ writeWords first more ++ tail.write
  | .anyText => ['.', '*']
  | .choice first others => writeRow first ++ writeOthers others
  | .bare first parts => '?' :: ':' :: (first.write ++ writeRow parts)
  | .folded g h =>
    '?' :: ':' ::
      (g.write ++ (Regex.grouped (Regex.blanks ++ h.write) ++ ['?']) ++ '|' :: h.write)

theorem Group.write_eq (g : Group) : g.write = '(' :: g.inside ++ [')'] := by
  cases g <;> simp [write, inside, Regex.grouped]

theorem Group.getLast?_write (g : Group) : g.write.getLast? = some ')' := by
  rw [g.write_eq, List.getLast?_concat]

theorem balanced_grouped {t : Text} (h : Balanced t) : Balanced (Regex.grouped t) :=
  Balanced.group (t := '?' :: ':' :: t)
    (((Balanced.single (by decide) (by decide) (by decide)).append
      (.single (c := ':') (by decide) (by decide) (by decide))).append h)

theorem balanced_question : Balanced ['?'] := .single (by decide) (by decide) (by decide)

mutual

theorem balanced_inside : ∀ g : Group, Balanced g.inside
  | .gap s => by
    rw [Group.inside]
    exact balanced_space s
  | .text lead first more tail => by
    rw [Group.inside]
    exact ((balanced_space _).append (balanced_words first more)).append (balanced_space tail)
  | .anyText => by
    rw [Group.inside]
    exact (Balanced.single (c := '.') (by decide) (by decide) (by decide)).append
      (.single (c := '*') (by decide) (by decide) (by decide))
  | .choice first others => by
    rw [Group.inside]
    exact (balanced_row first).append (balanced_others others)
  | .bare first parts => by
    rw [Group.inside]
    exact (balanced_question.append (.single (c := ':') (by decide) (by decide) (by decide))).append
      ((balanced_part first).append (balanced_row parts))
  | .folded g h => by
    have hg := balanced_inside g
    have hh := balanced_inside h
    rw [Group.inside, g.write_eq, h.write_eq]
    exact (balanced_question.append (.single (c := ':') (by decide) (by decide) (by decide))).append
      ((hg.group.append ((balanced_grouped (balanced_blanks.append hh.group)).append
        balanced_question)).append
        ((Balanced.single (c := '|') (by decide) (by decide) (by decide)).append hh.group))

theorem balanced_part : ∀ p : Part, Balanced p.write
  | .group g => by
    rw [Part.write, g.write_eq]
    exact (balanced_inside g).group
  | .optional g => by
    rw [Part.write, g.write_eq]
    exact (balanced_inside g).group.append balanced_question
  | .spaced g => by
    rw [Part.write, g.write_eq]
    exact (balanced_grouped (balanced_blanks.append (balanced_inside g).group)).append
      balanced_question
  | .absorbed g => by
    rw [Part.write, g.write_eq]
    exact (balanced_grouped ((balanced_inside g).group.append balanced_blanks)).append
      balanced_question

theorem balanced_row : ∀ ps : List Part, Balanced (writeRow ps)
  | [] => .nil
  | p :: ps => (balanced_part p).append (balanced_row ps)

theorem balanced_others : ∀ rest : List (List Part), Balanced (writeOthers rest)
  | [] => .nil
  | ps :: rest =>
    ((Balanced.single (c := '|') (by decide) (by decide) (by decide)).append
      (balanced_row ps)).append (balanced_others rest)

end

end StepMatch.Pattern
