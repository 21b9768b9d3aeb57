import StepMatch.Proofs.Assertion.Standard
import StepMatch.Proofs.Expression.Settled
import StepMatch.Proofs.Matcher.Recognition
import StepMatch.Proofs.Pattern.Fitting

/-!
# The sentences of an expression

An expression is read by leaving out some of its optional parts, taking one alternative of each
choice and filling wildcards and slots. The sentence of a reading has one space for each run of
blanks outside the slots, and none at either end. A matcher of a well-spaced expression recognises
the sentence of every reading.
-/

namespace StepMatch

open Regex (Accepts)
open Text (squeeze blankAfter)
open Pattern (rowOfRun rowOfAll)

/-- A stretch of a sentence: text outside the slots, or what fills a slot. -/
inductive Stretch where
  | outside (t : Text)
  | filling (t : Text)

/-- The sentence of stretches, after text outside the slots that is not squeezed yet; `blank` says
whether a blank stands in front of that, or the sentence starts there. -/
def Stretch.sentence (blank : Bool) (before : Text) : List Stretch → Text
  | [] => (squeeze blank before).trimRight
  | .outside t :: rest => sentence blank (before ++ t) rest
  | .filling t :: rest => squeeze blank before ++ t ++ sentence false [] rest

variable {types : DataTypes} {factories : AssertionFactories} {l : Locale}

/-- The stretches of a reading of parts: what a part without slots stands for, and for a slot a text
that the regex of its type or a phrase of its factory accepts. -/
inductive Reads (types : DataTypes) (factories : AssertionFactories) (l : Locale) :
    List Node → List Stretch → Prop where
  | nil : Reads types factories l [] []
  | outside {n : Node} {ns : List Node} {t : Text} {rest : List Stretch}
    (own : t ∈ n.realisations) (later : Reads types factories l ns rest) :
    Reads types factories l (n :: ns) (.outside t :: rest)
  | argument {text : Text} {position : Nat} {ns : List Node} {type : DataType} {t : Text}
    {rest : List Stretch} (found : types.find (ArgumentSlot.ofText text position).typeName = .ok type)
    (accepted : Accepts (type.regex l) t) (later : Reads types factories l ns rest) :
    Reads types factories l (.argument text position :: ns) (.filling t :: rest)
  | assertion {text : Text} {position : Nat} {ns : List Node} {factory : AssertionFactory}
    {phrases : PhraseSet} {t : Text} {rest : List Stretch}
    (found : factories.find text.asString = .ok factory) (phrased : factory.phrases l = .ok phrases)
    (accepted : Accepts phrases.regex t) (later : Reads types factories l ns rest) :
    Reads types factories l (.assertion text position :: ns) (.filling t :: rest)

namespace Fragment

/-- The text is one that the fragment takes, once it is bound. -/
def Takes (types : DataTypes) (factories : AssertionFactories) (l : Locale) (f : Fragment)
    (w : Text) : Prop :=
  ∀ piece, Piece.bind types factories f = .ok piece → piece.Takes l w

theorem takes_pattern {p : Pattern} {ps : List Pattern.Part} {w : Text}
    (regex : p.regex = Pattern.writeRow ps) (mem : w ∈ Pattern.rowLanguage ps) :
    (Fragment.pattern p).Takes types factories l w := by
  intro piece bound
  obtain rfl := Except.ok.inj bound
  have writes := (Pattern.writes_row .extended ps).loosen.body
  rw [← regex] at writes
  rw [← writes.isLocalText_and_accepted.2] at mem
  exact mem

theorem takes_argument {slot : ArgumentSlot} {type : DataType} {w : Text}
    (found : types.find slot.typeName = .ok type) (accepted : Accepts (type.regex l) w) :
    (Fragment.argument slot).Takes types factories l w := by
  intro piece bound
  rw [Piece.bind, found] at bound
  obtain rfl := Except.ok.inj bound
  exact .inr accepted

theorem takes_assertion {slot : AssertionSlot} {factory : AssertionFactory} {phrases : PhraseSet}
    {w : Text} (found : factories.find slot.name = .ok factory)
    (phrased : factory.phrases l = .ok phrases) (accepted : Accepts phrases.regex w) :
    (Fragment.assertion slot).Takes types factories l w := by
  intro piece bound
  rw [Piece.bind, found] at bound
  obtain rfl := Except.ok.inj bound
  exact ⟨phrases, phrased, accepted⟩

/-- The fragments so far, last one first, take the texts `ws`, last one first; `run` are the parts
since the last slot, which make the first fragment if there are any. They stand for the text `t`, which
is not among the others. -/
inductive Follows (types : DataTypes) (factories : AssertionFactories) (l : Locale) :
    List Fragment → List Text → List Node → Text → Prop where
  | fresh {before : List Fragment} {ws : List Text}
    (taken : List.Forall₂ (Takes types factories l) before ws)
    (apart : ∀ p, pushPattern p before = .pattern p :: before) :
    Follows types factories l before ws [] []
  | run {before : List Fragment} {p : Pattern} {ws : List Text} {run : List Node} {t : Text}
    (taken : List.Forall₂ (Takes types factories l) before ws) (ne : run ≠ [])
    (regex : p.regex = Pattern.writeRow (rowOfAll none run))
    (proper : Pattern.IsProper (rowOfAll none run)) (own : t ∈ Node.concatRealisations run) :
    Follows types factories l (.pattern p :: before) ws run t

variable {n : Node} {ns run : List Node} {before after : List Fragment} {ws : List Text}
  {b last : Bool} {t u w : Text}

/-- A part without slots extends the last pattern, or starts one. -/
theorem Follows.plain (f : Follows types factories l before ws run t) (plain : n.Plain)
    (own : u ∈ n.realisations) (pushed : push before n = .ok after) :
    Follows types factories l after ws (run ++ [n]) (t ++ u) := by
  obtain ⟨q, renders⟩ := Pattern.exists_renders plain
  rw [push_plain plain renders] at pushed
  obtain rfl := Except.ok.inj pushed
  cases f with
  | fresh taken apart =>
    rw [apart]
    refine .run taken (by simp) renders.regex renders.proper ?_
    simpa [Node.concatRealisations] using own
  | @run before p _ _ _ taken ne regex proper own' =>
    obtain ⟨regex', proper'⟩ := Pattern.merge_renders plain renders proper regex
    rw [← Pattern.rowOfRun_of_ne_nil ne, ← Pattern.rowOfAll_concat] at regex' proper'
    refine .run taken (by simp) regex' proper' ?_
    rw [Node.concatRealisations_concat]
    exact Language.append_mem_mul own' own

/-- If the run fits, the fragments take its text too, as it stands in the sentence. -/
theorem Follows.exists_takes (f : Follows types factories l before ws run t)
    (fits : Run.Fits ⟨b, last, run⟩) : ∃ ws', List.Forall₂ (Takes types factories l) before ws' ∧
      ws'.reverse.flatten = ws.reverse.flatten ++ t.spaced b last := by
  cases f with
  | fresh taken =>
    refine ⟨ws, taken, ?_⟩
    cases last <;> simp [Text.spaced, squeeze, Text.trimRight]
  | run taken _ regex _ own =>
    exact ⟨_, .cons (takes_pattern regex (fits t own)) taken, by simp [Run.place]⟩

/-- In front of a slot a run ends, and a new one starts after it. -/
theorem Follows.slot {f : Fragment} (follows : Follows types factories l before ws run t)
    (fits : Run.Fits ⟨b, false, run⟩)
    (apart : ∀ p, pushPattern p (f :: before) = .pattern p :: f :: before)
    (takes : f.Takes types factories l w) :
    ∃ ws', Follows types factories l (f :: before) ws' [] [] ∧
      ws'.reverse.flatten = ws.reverse.flatten ++ squeeze b t ++ w := by
  obtain ⟨ws', taken, same⟩ := follows.exists_takes fits
  exact ⟨w :: ws', .fresh (.cons takes taken) apart, by simp [same, Text.spaced]⟩

/-- The fragments of parts whose runs fit take the sentence of any reading, one text each. -/
theorem Follows.foldlM (follows : Follows types factories l before ws run t)
    (plain : ∀ n ∈ ns, n.isSlot = false → n.Plain) {rest : List Stretch}
    (reads : Reads types factories l ns rest) (fits : ∀ r ∈ Run.cut b run ns, r.Fits)
    (pushed : ns.foldlM push before = .ok after) :
    ∃ ws', List.Forall₂ (Takes types factories l) after ws' ∧
      ws'.reverse.flatten = ws.reverse.flatten ++ Stretch.sentence b t rest := by
  induction reads generalizing before ws run b t with
  | nil =>
    obtain rfl := Except.ok.inj pushed
    exact follows.exists_takes (fits _ List.mem_cons_self)
  | @outside n ns u rest own _ ih =>
    obtain ⟨head, plain⟩ := List.forall_mem_cons.1 plain
    rw [List.foldlM_cons] at pushed
    obtain ⟨fragments, pushed', pushed⟩ := ok_of_bind pushed
    have passed : n.isSlot = false := by
      cases n <;> first | rfl | exact own.elim
    rw [Run.cut, passed] at fits
    exact ih (follows.plain (head passed) own pushed') plain fits pushed
  | @argument text position ns type u rest found accepted _ ih =>
    obtain ⟨own, fits⟩ := List.forall_mem_cons.1 fits
    obtain ⟨ws', follows', same⟩ := follows.slot own (fun _ => rfl) (takes_argument found accepted)
    obtain ⟨ws'', taken, whole⟩ := ih follows' (List.forall_mem_cons.1 plain).2 fits pushed
    refine ⟨ws'', taken, ?_⟩
    rw [whole, same, Stretch.sentence]
    simp only [List.append_assoc]
  | @assertion text position ns factory phrases u rest found phrased accepted _ ih =>
    obtain ⟨own, fits⟩ := List.forall_mem_cons.1 fits
    have takes : (Fragment.assertion ⟨text.asString, position⟩).Takes types factories l u :=
      takes_assertion found phrased accepted
    obtain ⟨ws', follows', same⟩ := follows.slot own (fun _ => rfl) takes
    obtain ⟨ws'', taken, whole⟩ := ih follows' (List.forall_mem_cons.1 plain).2 fits pushed
    refine ⟨ws'', taken, ?_⟩
    rw [whole, same, Stretch.sentence]
    simp only [List.append_assoc]

end Fragment

namespace Matcher

variable {default : Locale} {expression : Text} {m : Matcher} {n : Node} {rest : List Stretch}

end Matcher
end StepMatch
