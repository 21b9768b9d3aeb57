import StepMatch.Proofs.Regex.Embedding

/-!
# Readable texts put together

In the extended dialect a text that is a regex by itself may stand between brackets anywhere. No name in
use gets in its way, for of several groups with one name all but the last are forgotten. So whatever is
put together of such groups is a regex again, also where it looks around, fixes a choice or names groups
of its own.
-/

namespace StepMatch.Regex

variable {t u : Text} {r : Regex} {P : List Item → Prop} {Q : List Regex → List Item → Prop}

/-- Wherever the text is read, reading goes on after it in the same scope. -/
def Joins (t : Text) : Prop := Adds .extended t fun _ => True

theorem Adds.joins (h : Adds .extended t P) : Joins t := h.mono fun _ _ => trivial

theorem Joins.append (h : Joins t) (h' : Joins u) : Joins (t ++ u) := (Adds.append h h').joins

end StepMatch.Regex
