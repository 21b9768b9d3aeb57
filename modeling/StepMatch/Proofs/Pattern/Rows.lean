import StepMatch.Proofs.Pattern.Seams
import StepMatch.Proofs.Expression.Trees
import StepMatch.Pattern.Rendering

/-!
# The rows of trees

A tree without slots and negations makes a pattern, and the regex of that pattern is the text of a
row. The row comes from the tree by the same merges, of shapes instead of texts.
-/

namespace StepMatch

/-- The texts after the first, each with the separator in front. -/
theorem Text.joinWith_cons (separator t : Text) (ts : List Text) :
    joinWith separator (t :: ts) = t ++ ts.flatMap (separator ++ ·) := by
  induction ts generalizing t with
  | nil => simp [joinWith]
  | cons u us ih =>
    have e : joinWith separator (t :: u :: us) = t ++ (separator ++ joinWith separator (u :: us)) := by
      simp [joinWith]
    rw [e, ih, List.flatMap_cons, List.append_assoc]

namespace Pattern

open Node (Plain)

/-- The words of a text. -/
def wordsOf (t : Text) : List Word :=
  t.words.attach.map fun w => ⟨w.1, Text.ne_nil_of_mem_words w.2, Text.isInk_of_mem_words w.2⟩

/-- The group of literal text. -/
def literalGroup (t : Text) : Group :=
  match wordsOf t with
  | [] => .gap (.ofLead t.startsBlank)
  | first :: more => .text t.startsBlank first more (.ofLead t.endsBlank)

/-- The group that a quantifier follows when a row is made optional. -/
def atomGroup : List Part → Group
  | [] => .gap .none
  | [.group g] => g
  | p :: ps => .bare p ps

/-- The group of a row that counts as optional where it stands on the right: that of a tree which is
optional as a whole. -/
def optionalOf? (n : Node) (row : List Part) : Option Group :=
  match n with
  | .optional _ => loneOptional? row
  | _ => none

/-- The row that goes on after what is merged already. -/
def mergeNode (merged : Option (List Part)) (n : Node) (row : List Part) : List Part :=
  match merged with
  | some before => mergeRow before row (optionalOf? n row) (n.toExpression == ['*'])
  | none => row

mutual

/-- The row of a tree. A tree that makes no plain pattern has none. -/
def rowOf : Node → List Part
  | .sequence children => rowOfAll none children
  | .literal t => [.group (literalGroup t)]
  | .wildcard => [.group .anyText]
  | .optional child => [.optional (atomGroup (rowOf child))]
  | .choice _ alternatives =>
    match rowsOf alternatives with
    | [] => []
    | first :: others => [.group (.choice first others)]
  | .negation .. | .argument .. | .assertion .. => []

/-- The row of neighbours in order, after what is merged already. -/
def rowOfAll (merged : Option (List Part)) : List Node → List Part
  | [] => merged.getD []
  | n :: ns => rowOfAll (some (mergeNode merged n (rowOf n))) ns

/-- The rows of several trees. -/
def rowsOf : List Node → List (List Part)
  | [] => []
  | n :: ns => rowOf n :: rowsOf ns

end

variable {ps qs : List Part} {t u : Text} {n : Node} {ns : List Node}

theorem rowOf_ofParts (ne : ns ≠ []) : rowOf (Node.ofParts ns) = rowOfAll none ns := by
  match ns with
  | [n] => rw [Node.ofParts, rowOfAll, rowOfAll, mergeNode, Option.getD_some]
  | n :: m :: ns =>
    rw [Node.ofParts, rowOf]
    simp

theorem map_wordsOf (t : Text) : (wordsOf t).map Word.text = t.words := by
  simp [wordsOf, Function.comp_def]

theorem spacedWords_map_text (first : Word) (more : List Word) :
    Regex.spacedWords ((first :: more).map Word.text) = writeWords first more := by
  rw [Regex.spacedWords, List.map_cons, List.map_cons, Text.joinWith_cons, writeWords,
    List.flatMap_map, List.flatMap_map]

theorem literalRegex_eq (t : Text) : literalRegex t = (literalGroup t).write := by
  have words := map_wordsOf t
  rw [literalRegex, literalGroup, ← words]
  cases wordsOf t with
  | nil =>
    cases t.startsBlank <;> rfl
  | cons first more =>
    simp only
    rw [spacedWords_map_text, Group.write]
    cases t.startsBlank <;> cases t.endsBlank <;> simp [Space.ofLead, Space.write]

theorem IsProper.append (h : IsProper ps) (qs : List Part) : IsProper (ps ++ qs) := by
  obtain _ | ⟨_ | _ | _ | _, ps⟩ := ps
  · exact h.elim
  · trivial
  · trivial
  · exact h.elim
  · obtain _ | ⟨(_ | _ | _ | _ | _ | _) | (_ | _ | _ | _ | _ | _) | _ | _, ps⟩ := ps <;>
      first | exact h.elim | trivial

theorem IsProper.relax (h : IsProper ps) (relaxed : relaxRow? ps = some qs) : IsProper qs := by
  obtain ⟨row, g, g', ends, rfl, rfl⟩ := relaxRow?_eq_some_iff.1 relaxed
  obtain _ | ⟨_ | _ | _ | _, row⟩ := row
  · trivial
  · trivial
  · trivial
  · exact h.elim
  · obtain _ | ⟨(_ | _ | _ | _ | _ | _) | (_ | _ | _ | _ | _ | _) | _ | _, ps⟩ := row
    · obtain ⟨rfl, -⟩ | ⟨lead, first, more, -, rfl⟩ := Group.relax?_cases ends
      · exact h.elim
      · trivial
    all_goals first | exact h.elim | trivial

theorem IsProper.absorb (h : IsProper ps) (qs : List Part) : IsProper (absorbRow ps qs) := by
  rw [absorbRow]
  split
  · rename_i padded
    obtain ⟨first, more, tail, rest, ⟨-, rfl⟩ | ⟨-, rfl⟩⟩ := padded?_eq_some_iff.1 padded <;> trivial
  · exact h.append qs

theorem IsProper.merge (h : IsProper ps) (qs : List Part) (optional? : Option Group)
    (wildcard : Bool) : IsProper (mergeRow ps qs optional? wildcard) := by
  rw [mergeRow.eq_def]
  split
  · split
    · trivial
    · rename_i relaxed
      exact (h.relax relaxed).append _
    · exact h.absorb qs
  · split
    · rename_i relaxed
      exact (h.relax relaxed).append _
    · exact h.absorb qs

/-- The group of a proper row is the atom of its text. -/
theorem atom_row (proper : IsProper ps) : atom (writeRow ps) = (atomGroup ps).write := by
  rw [atom]
  split
  · rename_i single
    obtain ⟨g, rfl⟩ := isSingleGroup_row.1 single
    simp [atomGroup, writeRow, Part.write]
  · rename_i several
    obtain _ | ⟨p, ps⟩ := ps
    · exact proper.elim
    · have e : atomGroup (p :: ps) = .bare p ps := by
        rw [atomGroup.eq_def]
        split
        · rename_i nil
          cases nil
        · rename_i g lone
          exact absurd (isSingleGroup_row.2 ⟨g, lone⟩) several
        · rename_i cons
          cases cons
          rfl
      rw [e, Group.write]
      rfl

theorem head?_escapeLiteral (t : Text) : (escapeLiteral t).head? ≠ some '(' := by
  obtain _ | ⟨c, t⟩ := t
  · simp [escapeLiteral]
  · rw [escapeLiteral, List.flatMap_cons]
    split
    · simp
    · rename_i plain
      rintro e
      obtain rfl : c = '(' := by simpa using e
      exact plain rfl

theorem balanced_escapeLiteral (t : Text) : Balanced (escapeLiteral t) := by
  refine .flatMap fun c _ => ?_
  split
  · exact .escaped c
  · rename_i h
    simp only [isStructural, Bool.not_eq_true, Bool.or_eq_false_iff, beq_eq_false_iff_ne] at h
    exact .single (by tauto) (by tauto) (by tauto)

theorem balanced_choiceExpression (h : ∀ n ∈ ns, Balanced n.toExpression) :
    Balanced (Node.choiceExpression ns) := by
  induction ns with
  | nil => exact .nil
  | cons n ns ih =>
    have hn := h n List.mem_cons_self
    obtain _ | ⟨m, ns⟩ := ns
    · exact hn
    · exact hn.append ((Balanced.single (c := '|') (by decide) (by decide) (by decide)).append
        (ih fun n hn => h n (List.mem_cons_of_mem _ hn)))

theorem balanced_concatExpression (h : ∀ n ∈ ns, Balanced n.toExpression) :
    Balanced (Node.concatExpression ns) := by
  induction ns with
  | nil => exact .nil
  | cons n ns ih =>
    exact (h n List.mem_cons_self).append (ih fun n hn => h n (List.mem_cons_of_mem _ hn))

theorem balanced_toExpression (h : n.Plain) : Balanced n.toExpression := by
  induction h with
  | sequence _ _ ih => exact balanced_concatExpression ih
  | literal => exact balanced_escapeLiteral _
  | optional _ ih => exact ih.group
  | @choice delimiter alternatives _ _ ih =>
    have inner := balanced_choiceExpression ih
    cases delimiter with
    | bare => simpa [Node.toExpression, Delimiter.opening, Delimiter.closing] using inner
    | parenthesis => exact inner.group
    | bracket =>
      exact ((Balanced.single (c := '[') (by decide) (by decide) (by decide)).append inner).append
        (.single (c := ']') (by decide) (by decide) (by decide))
  | wildcard => exact .single (by decide) (by decide) (by decide)

/-- The expression of a tree with more after it is no single group. -/
theorem isSingleGroup_toExpression (h : n.Plain) (more : u ≠ []) :
    isSingleGroup (n.toExpression ++ u) = false := by
  have group : ∀ {t u : Text}, Balanced t → u ≠ [] →
      isSingleGroup ('(' :: t ++ [')'] ++ u) = false := fun {t u} h more => by
    rw [List.append_assoc, List.singleton_append, h.isSingleGroup]
    simpa using more
  have other : ∀ {t : Text}, t.head? ≠ some '(' → isSingleGroup t = false := fun {t} ne => by
    obtain _ | ⟨c, t⟩ := t
    · rfl
    · rw [isSingleGroup.eq_def]
      split
      · rename_i e
        obtain ⟨rfl, -⟩ := List.cons.inj e
        exact absurd rfl ne
      · rfl
  induction h generalizing u with
  | @sequence children two _ ih =>
    obtain _ | ⟨n, ns⟩ := children
    · simp at two
    · rw [Node.toExpression, Node.concatExpression, List.append_assoc]
      exact ih n List.mem_cons_self (by simp [more])
  | @literal t ne =>
    refine other ?_
    rw [Node.toExpression, List.head?_append_of_ne_nil]
    · exact head?_escapeLiteral t
    · exact (Node.Formed.literal ne).toExpression_ne_nil
  | optional inner _ => exact group (balanced_toExpression inner) more
  | @choice delimiter alternatives two each ih =>
    cases delimiter with
    | bare =>
      obtain _ | ⟨n, _ | ⟨m, ns⟩⟩ := alternatives
      · simp at two
      · simp at two
      · have e : (Node.choice .bare (n :: m :: ns)).toExpression ++ u =
            n.toExpression ++ ('|' :: Node.choiceExpression (m :: ns) ++ u) := by
          simp [Node.toExpression, Node.choiceExpression, Delimiter.opening, Delimiter.closing]
        rw [e]
        exact ih n List.mem_cons_self (by simp)
    | parenthesis =>
      exact group (balanced_choiceExpression fun n hn => balanced_toExpression (each n hn)) more
    | bracket => exact other (by simp [Node.toExpression, Delimiter.opening])
  | wildcard => exact other (by simp [Node.toExpression])

/-- The text of one alternative and more, with bars between them. -/
theorem joinWith_bar (first : List Part) (others : List (List Part)) :
    Text.joinWith ['|'] (writeRow first :: others.map writeRow) =
      writeRow first ++ writeOthers others := by
  rw [Text.joinWith_cons]
  congr 1
  induction others with
  | nil => rfl
  | cons r rs ih => simp [writeOthers, ← ih]

/-- What the pattern of a tree is: the regex is the text of the row, the piece of the expression is
the tree written back. -/
structure Renders (n : Node) (p : Pattern) : Prop where
  rendered : ofNode n = .ok p
  regex : p.regex = writeRow (rowOf n)
  literal : p.literal = n.toExpression
  proper : IsProper (rowOf n)

theorem Renders.shows (h : n.Plain) {p : Pattern} (r : Renders n p) :
    Shows p (rowOf n) (optionalOf? n (rowOf n)) where
  regex := r.regex
  isOptional := by
    rw [Pattern.isOptional, r.regex, r.literal]
    cases h with
    | @sequence children two each =>
      obtain _ | ⟨n, _ | ⟨m, ns⟩⟩ := children
      · simp at two
      · simp at two
      · have more : m.toExpression ≠ [] :=
          (each m (List.mem_cons_of_mem _ List.mem_cons_self)).formed.toExpression_ne_nil
        have single : isSingleGroup (Node.sequence (n :: m :: ns)).toExpression = false := by
          rw [Node.toExpression, Node.concatExpression]
          exact isSingleGroup_toExpression (each n List.mem_cons_self)
            (by simp [Node.concatExpression, more])
        rw [single, Bool.and_false]
        rfl
    | literal | wildcard =>
      simp [rowOf, writeRow, Part.write, Group.getLast?_write, optionalOf?]
    | @choice delimiter alternatives two each =>
      cases e : rowsOf alternatives <;>
        simp [rowOf, e, writeRow, Part.write, Group.getLast?_write, optionalOf?]
    | @optional child inner =>
      have single := (balanced_toExpression inner).isSingleGroup []
      simp only [rowOf, writeRow, Part.write, optionalOf?, loneOptional?, List.append_nil,
        List.getLast?_concat, Node.toExpression, single]
      rfl
  lone g h := by
    cases n with
    | optional child => exact loneOptional?_eq_some_iff.1 h
    | _ => cases h

/-- Merging one more tree goes the same way for patterns and for rows. -/
theorem merge_renders (h : n.Plain) {p m : Pattern} (r : Renders n p) (proper : IsProper ps)
    (hm : m.regex = writeRow ps) :
    (m.merge p).regex = writeRow (mergeNode (some ps) n (rowOf n)) ∧
      IsProper (mergeNode (some ps) n (rowOf n)) := by
  refine ⟨?_, proper.merge _ _ _⟩
  rw [Pattern.merge, mergeRegex_eq proper hm (r.shows h), r.literal]
  rfl

/-- So does merging several. -/
theorem concat_renders (plain : ∀ n ∈ ns, n.Plain) (each : ∀ n ∈ ns, ∃ p, Renders n p)
    {m : Pattern} (proper : IsProper ps) (hm : m.regex = writeRow ps) :
    ∃ p, concat (some m) ns = .ok p ∧ p.regex = writeRow (rowOfAll (some ps) ns) ∧
      p.literal = m.literal ++ Node.concatExpression ns ∧ IsProper (rowOfAll (some ps) ns) := by
  induction ns generalizing m ps with
  | nil => exact ⟨m, rfl, hm, by simp [Node.concatExpression], proper⟩
  | cons n ns ih =>
    obtain ⟨p, r⟩ := each n List.mem_cons_self
    obtain ⟨regex, proper'⟩ := merge_renders (plain n List.mem_cons_self) r proper hm
    obtain ⟨q, e, regex, literal, proper'⟩ := ih (fun n hn => plain n (List.mem_cons_of_mem _ hn))
      (fun n hn => each n (List.mem_cons_of_mem _ hn)) proper' regex
    refine ⟨q, ?_, regex, ?_, proper'⟩
    · rw [concat, r.rendered]
      exact e
    · rw [literal, Node.concatExpression, ← List.append_assoc, ← r.literal]
      rfl

theorem regexes_eq (each : ∀ n ∈ ns, ∃ p, Renders n p) :
    regexes ns = .ok ((rowsOf ns).map writeRow) := by
  induction ns with
  | nil => rfl
  | cons n ns ih =>
    obtain ⟨p, r⟩ := each n List.mem_cons_self
    rw [regexes, r.rendered, ih fun n hn => each n (List.mem_cons_of_mem _ hn), rowsOf,
      List.map_cons, ← r.regex]
    rfl

/-- Every plain tree has a pattern, and it is the one of its row. -/
theorem exists_renders (h : n.Plain) : ∃ p, Renders n p := by
  induction h with
  | @sequence children two each ih =>
    obtain _ | ⟨n, ns⟩ := children
    · simp at two
    · obtain ⟨p, r⟩ := ih n List.mem_cons_self
      obtain ⟨q, e, regex, literal, proper⟩ := concat_renders
        (fun n hn => each n (List.mem_cons_of_mem _ hn))
        (fun n hn => ih n (List.mem_cons_of_mem _ hn)) r.proper r.regex
      refine ⟨q, ?_, ?_, ?_, ?_⟩
      · rw [ofNode, concat, r.rendered]
        exact e
      · rw [regex, rowOf, rowOfAll, mergeNode]
      · rw [literal, r.literal]
        rfl
      · rw [rowOf, rowOfAll, mergeNode]
        exact proper
  | @literal t ne =>
    refine ⟨⟨literalRegex t, escapeLiteral t⟩, rfl, ?_, rfl, by rw [rowOf]; trivial⟩
    rw [rowOf, writeRow, writeRow, Part.write, List.append_nil, literalRegex_eq]
  | @optional child inner ih =>
    obtain ⟨p, r⟩ := ih
    refine ⟨⟨atom p.regex ++ ['?'], '(' :: p.literal ++ [')']⟩, ?_, ?_, ?_, by rw [rowOf]; trivial⟩
    · rw [ofNode, r.rendered]
      rfl
    · rw [rowOf, writeRow, writeRow, Part.write, List.append_nil, r.regex, atom_row r.proper]
    · rw [Node.toExpression, r.literal]
  | @choice delimiter alternatives two each ih =>
    obtain _ | ⟨n, ns⟩ := alternatives
    · simp at two
    · have e := regexes_eq ih
      refine ⟨⟨'(' :: Text.joinWith ['|'] ((rowsOf (n :: ns)).map writeRow) ++ [')'],
        (Node.choice delimiter (n :: ns)).toExpression⟩, ?_, ?_, rfl, by rw [rowOf]; trivial⟩
      · rw [ofNode, e]
        rfl
      · rw [rowsOf, List.map_cons, joinWith_bar]
        simp [rowOf, rowsOf, writeRow, Part.write, Group.write]
  | wildcard => exact ⟨⟨['(', '.', '*', ')'], ['*']⟩, rfl, rfl, rfl, trivial⟩

end Pattern
end StepMatch
