import StepMatch.Proofs.Expression.Slots
import StepMatch.Proofs.Pattern.Samples
import StepMatch.Proofs.Pattern.Spacing

/-!
# Runs that fit

Between two slots of an expression there is a run of parts that are merged into one pattern. The run
fits if its pattern takes all that its parts stand for, as it stands in a sentence: with one space for
each run of blanks, none at the start of the sentence and none at its end. Samples decide whether a run
fits, and the runs of a well-spaced expression do.
-/

namespace StepMatch

namespace Node

theorem concatRealisations_concat (ns : List Node) (n : Node) :
    concatRealisations (ns ++ [n]) = concatRealisations ns * n.realisations := by
  induction ns with
  | nil => simp [concatRealisations]
  | cons m ns ih => rw [List.cons_append, concatRealisations, concatRealisations, ih, mul_assoc]

end Node

/-- The parts of an expression between two slots, of which there may be none. -/
structure Run where
  /-- Whether the expression starts with them. -/
  first : Bool
  /-- Whether it ends with them. -/
  last : Bool
  parts : List Node

namespace Run

open Node (concatRealisations concatSamples)
open Pattern (rowLanguage rowOfAll)

variable {mark : Char} {first : Bool} {r : Run} {run ns : List Node}

/-- The runs of the parts `ns`, after the parts `run` since the last slot. -/
def cut (first : Bool) (run : List Node) : List Node → List Run
  | [] => [⟨first, true, run⟩]
  | n :: ns => if n.isSlot then ⟨first, false, run⟩ :: cut false [] ns else cut first (run ++ [n]) ns

/-- The runs of an expression. -/
def ofNode (n : Node) : List Run := cut true [] n.parts

/-- A text of the run as it stands in the sentence. -/
def place (r : Run) (t : Text) : Text := t.spaced r.first r.last

/-- The pattern of the run takes all that the run stands for, as it stands in the sentence. -/
def Fits (r : Run) : Prop :=
  ∀ t ∈ concatRealisations r.parts, r.place t ∈ rowLanguage (rowOfAll none r.parts)

end Run

namespace Node

variable {mark : Char} {n : Node} {expression : Text}

end Node

/-! ## Well-spaced expressions -/

namespace Pattern

open Text (squeeze blankAfter)

variable {n : Node} {ns run : List Node} {e e' : Edge} {b last : Bool}

/-- The row of parts, if there are any. -/
def rowOfRun (run : List Node) : Option (List Part) :=
  if run.isEmpty then none else some (rowOfAll none run)

theorem rowOfRun_of_ne_nil (ne : run ≠ []) : rowOfRun run = some (rowOfAll none run) := by
  rw [rowOfRun, List.isEmpty_eq_false_iff.2 ne]
  rfl

theorem rowOfAll_concat (run : List Node) (n : Node) :
    rowOfAll none (run ++ [n]) = mergeNode (rowOfRun run) n (rowOf n) := by
  have extend : ∀ (ps : List Part) (ns : List Node),
      rowOfAll (some ps) (ns ++ [n]) = mergeNode (some (rowOfAll (some ps) ns)) n (rowOf n) := by
    intro ps ns
    induction ns generalizing ps with
    | nil => rfl
    | cons m ns ih => exact ih _
  cases run with
  | nil => rfl
  | cons m ns => exact extend _ ns

end Pattern

end StepMatch
