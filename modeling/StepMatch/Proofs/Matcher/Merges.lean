import StepMatch.Proofs.Matcher.Runs
import StepMatch.Proofs.Pattern.Signs

/-!
# The merges of an expression

Neighbours without a slot between them are merged one by one, among the parts of the expression and in each
sequence further inside. How a merge settles the seam depends on three signs in the texts that it is given,
and these say of the two neighbours at the seam what they are taken to say, whatever text they hold.
-/

namespace StepMatch

/-- A seam of the tree: what is merged so far, the neighbour that this ends with, the next neighbour, and
the pattern of that. -/
inductive Node.HasSeam (n : Node) : Pattern → Node → Node → Pattern → Prop where
  /-- Among the parts of the tree, where fragments have been made of those in front. -/
  | outside {done rest : List Node} {earlier : List Fragment} {before next : Node} {left right : Pattern}
    (parts : n.parts = done ++ before :: next :: rest)
    (merged : (done ++ [before]).foldlM Fragment.push [] = .ok (.pattern left :: earlier))
    (made : Pattern.ofNode next = .ok right) : HasSeam n left before next right
  /-- In a sequence somewhere in a part. -/
  | inside {m : Node} {children done rest : List Node} {before next : Node} {left right : Pattern}
    (part : m ∈ n.parts) (within : (Node.sequence children).Within m)
    (parts : children = done ++ before :: next :: rest)
    (merged : Pattern.concat none (done ++ [before]) = .ok left)
    (made : Pattern.ofNode next = .ok right) : HasSeam n left before next right

namespace Fragment

variable {done : List Node} {before next : Node} {earlier : List Fragment} {left right : Pattern}

/-- At a seam among the parts, the next step is to merge. -/
theorem foldlM_push_merge (merged : (done ++ [before]).foldlM push [] = .ok (.pattern left :: earlier))
    (made : Pattern.ofNode next = .ok right) :
    (done ++ [before, next]).foldlM push [] = .ok (.pattern (left.merge right) :: earlier) := by
  have passed : next.isSlot = false := by
    cases next with
    | argument | assertion => cases made
    | _ => rfl
  rw [List.append_cons, List.foldlM_append, merged]
  show [next].foldlM push _ = _
  rw [List.foldlM_cons, push_of_not_slot passed, made]
  rfl

/-- What is merged among the parts is the run that they close with. -/
theorem exists_concat_of_foldlM
    (merged : (done ++ [before]).foldlM push [] = .ok (.pattern left :: earlier)) :
    ∃ front, Pattern.concat none (front ++ [before]) = .ok left := by
  obtain ⟨_, covers, tiled, -⟩ := tiles_nil.foldlM merged
  cases covers with
  | @cons _ run _ rs own =>
    cases own with
    | pattern ne _ whole =>
      obtain ⟨front, last, rfl⟩ := (List.eq_nil_or_concat run).resolve_left ne
      rw [List.concat_eq_append] at whole tiled
      rw [List.reverse_cons, List.flatten_append, List.flatten_singleton, List.nil_append,
        ← List.append_assoc] at tiled
      obtain ⟨-, same⟩ := List.append_inj' tiled rfl
      exact ⟨front, by rwa [List.cons.inj same |>.1] at whole⟩

end Fragment

namespace Node

variable {n before next : Node} {left right : Pattern}

theorem Within.of_mem_parts {k m : Node} (within : k.Within m) (mem : m ∈ n.parts) : k.Within n := by
  cases n with
  | sequence children => exact .sequence mem within
  | _ => exact List.mem_singleton.1 mem ▸ within

/-- At every seam two neighbours of a sequence meet, the first of them at the end of what is merged. -/
theorem HasSeam.exists_sequence (seam : n.HasSeam left before next right) :
    Pattern.ofNode next = .ok right ∧
      (∃ front, Pattern.concat none (front ++ [before]) = .ok left) ∧
      ∃ children, (sequence children).Within n ∧ before ∈ children ∧ next ∈ children := by
  cases seam with
  | @outside done rest earlier _ _ _ _ parts merged made =>
    refine ⟨made, Fragment.exists_concat_of_foldlM merged, ?_⟩
    cases n with
    | sequence children =>
      have parts : children = done ++ before :: next :: rest := parts
      exact ⟨children, .self, by simp [parts], by simp [parts]⟩
    | _ =>
      have length := congrArg List.length parts
      simp [Node.parts] at length
      omega
  | @inside m children done rest _ _ _ _ part within parts merged made =>
    refine ⟨made, ⟨done, merged⟩, children, within.of_mem_parts part, ?_, ?_⟩ <;> simp [parts]

/-- A merge is not misled by what literal text says: its right side counts as optional or as a wildcard
exactly if the next neighbour is, and its left side closes with blanks exactly if literal text does that the
neighbour before closes with. -/
theorem HasSeam.signs {expression : Text} (parsed : parse expression = .ok n)
    (seam : n.HasSeam left before next right) :
    (right.isOptional = true ↔ ∃ child, next = .optional child) ∧
      (right.literal = ['*'] ↔ next = .wildcard) ∧
      (Pattern.blankTail <:+ left.regex ↔ before.ClosesBlank) := by
  obtain ⟨made, ⟨front, merged⟩, children, within, mem, mem'⟩ := seam.exists_sequence
  have each : ∀ m ∈ children, m.Formed := by
    cases (formed_of_parse parsed).within within with
    | sequence _ each => exact each
  have told : next ≠ .literal ['*'] := fun star => tellsStars_of_parse parsed children within (star ▸ mem')
  refine ⟨Pattern.isOptional_iff (each next mem') made, ?_, ?_⟩
  · rw [Pattern.literal_of_ofNode made]
    exact toExpression_eq_star_iff (each next mem') told
  · exact Pattern.blankTail_suffix_concat_iff (each before mem)
      (fun p => Pattern.blankTail_suffix_iff (each before mem)) merged

/-- Literal text that reads like the end of a regex that closes with blanks, in front of an optional part. -/
theorem HasSeam.signs_of_escapes : ∃ n left right,
    parse "a\\\\s+\\)(b)".toList = .ok n ∧
      n.HasSeam left (.literal "a\\s+)".toList) (.optional (.literal ['b'])) right ∧
      right.isOptional = true ∧ right.literal ≠ ['*'] ∧ ¬ Pattern.blankTail <:+ left.regex := by
  let text : Node := .literal "a\\s+)".toList
  let optional : Node := .optional (.literal ['b'])
  have parsed : parse "a\\\\s+\\)(b)".toList = .ok (.sequence [text, optional]) := rfl
  obtain ⟨right, made, -⟩ := Pattern.exists_literal (show optional.containsSlot = false from rfl)
  have parts : (sequence [text, optional]).parts = [] ++ text :: optional :: [] := rfl
  have merged : ([] ++ [text]).foldlM Fragment.push [] = .ok [.pattern
      ⟨Pattern.literalRegex "a\\s+)".toList, escapeLiteral "a\\s+)".toList⟩] := rfl
  have seam := HasSeam.outside parts merged made
  obtain ⟨counts, star, blank⟩ := seam.signs parsed
  refine ⟨_, _, _, parsed, seam, counts.2 ⟨_, rfl⟩, fun e => ?_, fun e => ?_⟩
  · have e : Node.optional (.literal ['b']) = .wildcard := star.1 e
    cases e
  · have closes : (Node.literal "a\\s+)".toList).ClosesBlank := blank.1 e
    cases closes with
    | literal blank => exact absurd blank (by decide)

end Node
end StepMatch
