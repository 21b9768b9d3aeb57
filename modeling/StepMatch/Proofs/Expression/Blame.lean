import StepMatch.Proofs.Expression.Acceptance
import StepMatch.Proofs.Expression.Decoding

/-!
# Faults point at tokens

An expression that can be cut into tokens but has no tree is empty, or its fault points at one of the
tokens: at its first byte, and with the symbol that the expression has there. Only where the text of a
slot is to blame, the fault points at the opening brace and shows that text. Each fault comes of a single
step of the reading, which blames the token at hand or the one that opened a bracket; so what the run
needs to know of its state is that all open brackets were opened by symbols of the expression.
-/

namespace StepMatch

namespace Fault

/-- What a fault shows of the token that it points at, in front of other tokens. Two causes lie in the
text of a slot, and show that. -/
def Shows (f : Fault) (token : Token) (after : List Token) : Prop :=
  match f.cause with
  | .repeatedAssertion => token.symbol = .startAssertion ∧
      ∃ body, Token.filling? .endAssertion after = some body ∧ f.fragment = some body.trim
  | .malformedArgument => token.symbol = .startArgument ∧
      ∃ body, Token.filling? .endArgument after = some body ∧ f.fragment = some body.trim
  | .trailingEscape | .emptyExpression => False
  | _ => (∀ t, token.symbol ≠ .text t) ∧ f.fragment = some token.symbol.describe

/-- The fault points at one of the tokens. -/
def PointsAt (f : Fault) (tokens : List Token) : Prop :=
  ∃ before token after, tokens = before ++ token :: after ∧ f.position = token.start ∧
    f.Shows token after

/-- Whether a cause lies in a symbol. -/
def Cause.isStructural : Cause → Bool
  | .repeatedAssertion | .malformedArgument | .trailingEscape | .emptyExpression => false
  | _ => true

variable {all : List Token} {token : Token}

/-- A fault that shows the symbol of a token. -/
theorem pointsAt_of_mem {cause : Cause} {symbol : Symbol} (structural : cause.isStructural = true)
    (mem : token ∈ all) (own : token.symbol = symbol) (other : ∀ t, symbol ≠ .text t) :
    PointsAt ⟨cause, token.start, some symbol.describe⟩ all := by
  subst own
  obtain ⟨before, after, rfl⟩ := List.append_of_mem mem
  refine ⟨before, token, after, rfl, rfl, ?_⟩
  cases cause <;> first | exact ⟨other, rfl⟩ | cases structural

/-- What a fault points at is no text. -/
theorem Shows.ne_text {f : Fault} {after : List Token} (h : f.Shows token after) (t : Text) :
    token.symbol ≠ .text t := by
  unfold Shows at h
  split at h
  · simp [h.1]
  · simp [h.1]
  · exact h.elim
  · exact h.elim
  · exact h.1 t

end Fault

namespace Reading

open Fault (PointsAt pointsAt_of_mem)

variable {s s' : Reading} {all tokens rest : List Token} {token : Token} {t : Text} {fault : Fault}

/-- All open brackets were opened by symbols among the tokens. -/
def OpenedBy (s : Reading) (all : List Token) : Prop :=
  ∀ b ∈ s.brackets, b.opener ∈ all ∧ ∀ t, b.opener.symbol ≠ .text t

/-- A bracket that stands for nothing blames the token that opened it. -/
theorem pointsAt_of_node {b : Bracket} (opened : b.opener ∈ all ∧ ∀ t, b.opener.symbol ≠ .text t)
    {last : List Node} (e : b.node last = .error fault) : fault.PointsAt all := by
  rw [Bracket.node.eq_def] at e
  split at e
  · split at e
    · cases e
      exact pointsAt_of_mem rfl opened.1 rfl opened.2
    · split at e <;> cases e
  · dsimp only at e
    split at e <;> cases e
    exact pointsAt_of_mem rfl opened.1 rfl opened.2

theorem pointsAt_of_closeBracket (opened : s.OpenedBy all) (mem : token ∈ all)
    (other : ∀ t, token.symbol ≠ .text t) (e : s.closeBracket token = .error fault) :
    fault.PointsAt all := by
  rw [closeBracket.eq_def] at e
  dsimp only at e
  split at e
  · cases e
    exact pointsAt_of_mem rfl mem rfl other
  · rename_i b outer brackets
    split at e
    · obtain e | ⟨n, -, e⟩ := error_of_bind e
      · exact pointsAt_of_node (opened b (brackets ▸ List.mem_cons_self)) e
      · split at e
        · cases e
        · split at e <;> cases e
    · cases e
      exact pointsAt_of_mem rfl mem rfl other

/-- A bar outside all brackets is to blame if there is no word on one of its sides. -/
theorem eq_fault_of_chooseWord {bar : Token} (e : s.chooseWord bar t = .error fault) :
    fault = ⟨.misplacedSeparator, bar.start, some ['|']⟩ := by
  rw [chooseWord.eq_def] at e
  split at e
  · cases e
    rfl
  · split at e
    · cases e
    · split at e <;> cases e
      rfl
    · cases e
      rfl

theorem eq_fault_of_negateWord {caret : Token} (e : s.negateWord caret t = .error fault) :
    fault = ⟨.danglingNegation, caret.start, some ['^']⟩ := by
  rw [Reading.negateWord.eq_def] at e
  split at e <;> cases e
  rfl

theorem pointsAt_of_pushSlot {before : List Token} {opener : Token} {start stop start' stop' : Nat}
    (opens : opener.symbol = .startArgument ∨ opener.symbol = .startAssertion)
    (e : s.pushSlot opener t = .error fault) :
    fault.PointsAt (before ++
      opener :: ⟨.text t, start, stop⟩ :: ⟨(slotShape opener).1, start', stop'⟩ :: rest) := by
  have other : ∀ t, opener.symbol ≠ .text t := by
    obtain symbol | symbol := opens <;> simp [symbol]
  refine ⟨before, opener, _, rfl, ?_⟩
  rw [pushSlot.eq_def] at e
  obtain symbol | symbol := opens
  · have shape : (slotShape opener).1 = .endArgument := by simp [slotShape, symbol]
    simp only [symbol, reduceCtorEq, if_false] at e
    split at e
    · cases e
      exact ⟨rfl, other, congrArg (fun s => some s.describe) symbol.symm⟩
    · split at e <;> cases e
      exact ⟨rfl, symbol, t, by simp [Token.filling?, shape], rfl⟩
  · have shape : (slotShape opener).1 = .endAssertion := by simp [slotShape, symbol]
    simp only [symbol, if_true] at e
    split at e
    · cases e
      exact ⟨rfl, other, congrArg (fun s => some s.describe) symbol.symm⟩
    · split at e <;> cases e
      exact ⟨rfl, symbol, t, by simp [Token.filling?, shape], rfl⟩

theorem pointsAt_of_slotFault {opener : Token} (after : List Token) (mem : opener ∈ all)
    (other : ∀ t, opener.symbol ≠ .text t) : (slotFault opener after).PointsAt all := by
  have structural : (slotFault opener after).cause.isStructural = true := by
    by_cases symbol : opener.symbol = .startAssertion <;> cases after <;>
      simp only [slotFault, slotShape, symbol, if_true, if_false] <;>
      first | rfl | (split <;> rfl)
  exact pointsAt_of_mem structural mem rfl other

/-! ### What a whole run blames -/

/-- A step after which there are parts, and the same brackets are open. -/
structure Extends (s s' : Reading) : Prop where
  some : s'.parts ≠ []
  brackets : s'.brackets = s.brackets

theorem extends_of_chooseWord {bar : Token} (e : s.chooseWord bar t = .ok s') : Extends s s' := by
  obtain ⟨-, alternatives, before, rfl⟩ := eq_of_chooseWord e
  exact ⟨rest_ne_nil, rfl⟩

theorem extends_of_negateWord {caret : Token} (e : s.negateWord caret t = .ok s') :
    Extends s s' := by
  rw [Reading.negateWord.eq_def] at e
  split at e <;> cases e
  exact ⟨rest_ne_nil, rfl⟩

theorem extends_of_pushSlot {opener : Token} (e : s.pushSlot opener t = .ok s') :
    Extends s s' := by
  obtain ⟨-, -, -, rfl⟩ | ⟨-, -, rfl⟩ := pushSlot_eq_ok_iff.1 e <;>
    exact ⟨List.cons_ne_nil _ _, rfl⟩

theorem parts_of_closeBracket (formed : s.IsFormed) (e : s.closeBracket token = .ok s') :
    s'.parts ≠ [] := by
  obtain ⟨b, outer, n, brackets, -, made, rfl⟩ := closeBracket_eq_ok_iff.1 e
  obtain ⟨parts, waits⟩ := formed
  rw [brackets] at parts waits
  obtain ⟨bracketed, -, finished, -⟩ := waits
  have inner : n.Inner := inner_of_bracket_node bracketed
    (fun m hm => parts m (List.mem_reverse.1 hm)) finished made
  exact (s.afterBracket_parts outer inner made).1

theorem Extends.openedBy (h : Extends s s') (opened : s.OpenedBy all) : s'.OpenedBy all := by
  rwa [OpenedBy, h.brackets]

theorem OpenedBy.openBracket (opened : s.OpenedBy all) (delimiter : Delimiter) (negated : Bool)
    (mem : token ∈ all) (other : ∀ t, token.symbol ≠ .text t) :
    (s.openBracket token delimiter negated).OpenedBy all :=
  List.forall_mem_cons.2 ⟨⟨mem, other⟩, opened⟩

theorem OpenedBy.nextAlternative (opened : s.OpenedBy all) {b : Bracket} {outer : List Bracket}
    (brackets : s.brackets = b :: outer) : (s.nextAlternative b outer).OpenedBy all := by
  rw [OpenedBy, brackets] at opened
  exact List.forall_mem_cons.2 (List.forall_mem_cons.1 opened)

theorem OpenedBy.closeBracket (opened : s.OpenedBy all) (e : s.closeBracket token = .ok s') :
    s'.OpenedBy all := by
  obtain ⟨b, outer, n, brackets, -, -, rfl⟩ := closeBracket_eq_ok_iff.1 e
  rw [OpenedBy, brackets] at opened
  rw [OpenedBy, (s.afterBracket_brackets b outer n).1]
  exact (List.forall_mem_cons.1 opened).2

/-- A run that fails blames one of the tokens. -/
theorem pointsAt_of_run (opened : s.OpenedBy all) (suffix : tokens <:+ all)
    (e : s.run tokens = .error fault) : fault.PointsAt all := by
  have tail : ∀ {token : Token} {rest : List Token}, token :: rest <:+ all → rest <:+ all :=
    fun suffix => (List.suffix_cons _ _).trans suffix
  have head : ∀ {token : Token} {rest : List Token}, token :: rest <:+ all → token ∈ all :=
    fun suffix => suffix.subset List.mem_cons_self
  fun_induction Reading.run s tokens with
  | case1 => cases e
  | case2 s b outer brackets =>
    cases e
    obtain ⟨mem, other⟩ := opened b (brackets ▸ List.mem_cons_self)
    refine pointsAt_of_mem ?_ mem rfl other
    cases b.delimiter <;> rfl
  | case3 s token rest t symbol ih => exact ih opened (tail suffix) e
  | case4 s token rest symbol ih | case5 s token rest symbol ih =>
    exact ih (opened.openBracket _ false (head suffix) (by simp [symbol])) (tail suffix) e
  | case6 s token rest symbol ih | case7 s token rest symbol ih =>
    obtain e | ⟨s', closed, e⟩ := error_of_bind e
    · exact pointsAt_of_closeBracket opened (head suffix) (by simp [symbol]) e
    · exact ih s' (opened.closeBracket closed) (tail suffix) e
  | case8 s token symbol b outer rest brackets ih =>
    exact ih (opened.nextAlternative brackets) (tail suffix) e
  | case9 s token symbol t start stop rest outside ih =>
    obtain e | ⟨s', chosen, e⟩ := error_of_bind e
    · exact eq_fault_of_chooseWord e ▸ pointsAt_of_mem rfl (head suffix) symbol (by simp)
    · exact ih s' ((extends_of_chooseWord chosen).openedBy opened) (tail (tail suffix)) e
  | case10 s token rest symbol =>
    cases e
    exact pointsAt_of_mem rfl (head suffix) symbol (by simp)
  | case11 s token symbol t start stop rest ih =>
    obtain e | ⟨s', negated, e⟩ := error_of_bind e
    · exact eq_fault_of_negateWord e ▸ pointsAt_of_mem rfl (head suffix) symbol (by simp)
    · exact ih s' ((extends_of_negateWord negated).openedBy opened) (tail (tail suffix)) e
  | case12 s token symbol start stop rest ih =>
    have opened := opened.openBracket .bracket true (head (tail suffix)) (by simp)
    exact ih opened (tail (tail suffix)) e
  | case13 s token rest symbol =>
    cases e
    exact pointsAt_of_mem rfl (head suffix) symbol (by simp)
  | case14 s token symbol outside t start stop start' stop' rest ih
  | case18 s token symbol outside t start stop start' stop' rest ih =>
    obtain e | ⟨s', pushed, e⟩ := error_of_bind e
    · obtain ⟨before, rfl⟩ := suffix
      exact pointsAt_of_pushSlot (by simp [symbol]) e
    · exact ih s' ((extends_of_pushSlot pushed).openedBy opened) (tail (tail (tail suffix))) e
  | case15 s token symbol | case16 s token rest symbol | case19 s token symbol
  | case20 s token rest symbol =>
    cases e
    exact pointsAt_of_slotFault _ (head suffix) (by simp [symbol])
  | case17 s token rest symbol | case21 s token rest symbol | case22 s token rest symbol
  | case23 s token rest symbol =>
    cases e
    exact pointsAt_of_mem rfl (head suffix) rfl (by simp [symbol])

/-- A run that has parts or open brackets to begin with, or else tokens, ends with parts. -/
theorem run_ne_nil (formed : s.IsFormed) (texts : ∀ token ∈ tokens, token.symbol ≠ .text [])
    (begun : s.parts ≠ [] ∨ s.brackets ≠ [] ∨ tokens ≠ []) {parts : List Node}
    (e : s.run tokens = .ok parts) : parts ≠ [] := by
  have tail : ∀ {token : Token} {rest : List Token},
      (∀ t ∈ token :: rest, t.symbol ≠ .text []) → ∀ t ∈ rest, t.symbol ≠ .text [] :=
    fun texts => (List.forall_mem_cons.1 texts).2
  fun_induction Reading.run s tokens with
  | case1 s outside =>
    cases e
    simpa [outside] using begun
  | case3 s token rest t symbol ih =>
    have ne : t ≠ [] := by
      rintro rfl
      exact texts token List.mem_cons_self symbol
    exact ih (formed.pushText t) (tail texts) (.inl (pushText_ne_nil ne)) e
  | case4 s token rest symbol ih | case5 s token rest symbol ih =>
    exact ih (formed.openBracket _ (by decide) _) (tail texts) (.inr (.inl (List.cons_ne_nil _ _))) e
  | case6 s token rest symbol ih | case7 s token rest symbol ih =>
    obtain ⟨s', closed, e⟩ := ok_of_bind e
    exact ih s' (formed.closeBracket closed) (tail texts) (.inl (parts_of_closeBracket formed closed)) e
  | case8 s token symbol b outer rest brackets ih =>
    exact ih (formed.nextAlternative brackets) (tail texts) (.inr (.inl (List.cons_ne_nil _ _))) e
  | case9 s token symbol t start stop rest outside ih =>
    obtain ⟨s', chosen, e⟩ := ok_of_bind e
    exact ih s' (formed.chooseWord outside chosen) (tail (tail texts))
      (.inl (extends_of_chooseWord chosen).some) e
  | case11 s token symbol t start stop rest ih =>
    obtain ⟨s', negated, e⟩ := ok_of_bind e
    exact ih s' (formed.negateWord negated) (tail (tail texts))
      (.inl (extends_of_negateWord negated).some) e
  | case12 s token symbol start stop rest ih =>
    exact ih (formed.openBracket _ (by decide) _) (tail (tail texts))
      (.inr (.inl (List.cons_ne_nil _ _))) e
  | case14 s token symbol outside t start stop start' stop' rest ih
  | case18 s token symbol outside t start stop start' stop' rest ih =>
    obtain ⟨s', pushed, e⟩ := ok_of_bind e
    exact ih s' (formed.pushSlot (List.isEmpty_iff.1 outside) pushed) (tail (tail (tail texts)))
      (.inl (extends_of_pushSlot pushed).some) e
  | _ => cases e

end Reading

/-! ### Where it is in the expression -/

/-- A token that is cut out of the expression starts inside it. -/
theorem Token.IsCutFrom.start_lt_byteLength {expression : Text} {token : Token}
    (h : token.IsCutFrom expression) : token.start < expression.byteLength := by
  have width := h.start_lt_stop
  obtain ⟨before, source, after, rfl, -, start, stop, -⟩ := h
  rw [Text.byteLength_append, Text.byteLength_append, start]
  omega

/-- A token that is no text is cut out of the expression where it starts, and is written there. -/
theorem Token.IsCutFrom.exists_describe {expression : Text} {token : Token}
    (h : token.IsCutFrom expression) (other : ∀ t, token.symbol ≠ .text t) : ∃ before after,
      expression = before ++ token.symbol.describe ++ after ∧ before.byteLength = token.start := by
  obtain ⟨before, source, after, rfl, -, start, -, own⟩ := h
  split at own
  · rename_i t symbol
    exact absurd symbol (other t)
  · exact ⟨before, after, own ▸ rfl, start⟩

/-- An expression that is cut into tokens but has no tree is empty, or its fault points at a token of
it, which the expression has at that place. -/
theorem Node.pointsAt_of_parse {expression : Text} {fault : Fault}
    (h : Node.parse expression = .error fault) (readable : fault.isLexical = false) :
    expression = [] ∧ fault = ⟨.emptyExpression, 0, none⟩ ∨
      ∃ tokens before token after, Token.scan expression = .ok tokens ∧
        tokens = before ++ token :: after ∧ fault.position = token.start ∧
        fault.Shows token after ∧ fault.position < expression.byteLength ∧
        ∃ left right, expression = left ++ token.symbol.describe ++ right ∧
          left.byteLength = fault.position := by
  obtain lexical | ⟨tokens, scanned, h⟩ := error_of_bind h
  · obtain ⟨-, rfl⟩ := Token.scanFrom_eq_error_iff.1 lexical
    cases readable
  have tiled := tiled_of_scanFrom scanned
  obtain structural | ⟨parts, run, h⟩ := error_of_bind h
  · right
    obtain ⟨before, token, after, split, position, shows⟩ := Reading.pointsAt_of_run
      (by simp [Reading.OpenedBy, Reading.start]) List.suffix_rfl structural
    have cut : token.IsCutFrom expression :=
      tiled.isCutFrom Text.byteLength_nil token (by simp [split])
    obtain ⟨left, right, written, start⟩ := cut.exists_describe shows.ne_text
    exact ⟨tokens, before, token, after, scanned, split, position, shows,
      position ▸ cut.start_lt_byteLength, left, right, written, start.trans position.symm⟩
  · left
    have empty : parts.isEmpty = true ∧ fault = ⟨.emptyExpression, 0, none⟩ := by
      split at h <;> cases h
      exact ⟨‹_›, rfl⟩
    have none : tokens = [] := by
      by_contra some
      exact Reading.run_ne_nil Reading.isFormed_start (texts_of_tiled tiled) (.inr (.inr some)) run
        (List.isEmpty_iff.1 empty.1)
    rw [none] at tiled
    cases tiled
    exact ⟨rfl, empty.2⟩

/-- With a second assertion, which stands after text of more bytes than characters. -/
theorem Node.pointsAt_of_repeated :
    Node.parse "é {{a}} {{ b }}".toList = .error ⟨.repeatedAssertion, 9, some ['b']⟩ ∧
      ∃ tokens before token after, Token.scan "é {{a}} {{ b }}".toList = .ok tokens ∧
        tokens = before ++ token :: after ∧ 9 = token.start ∧
        Fault.Shows ⟨.repeatedAssertion, 9, some ['b']⟩ token after ∧
        9 < Text.byteLength "é {{a}} {{ b }}".toList ∧
        ∃ left right, "é {{a}} {{ b }}".toList = left ++ token.symbol.describe ++ right ∧
          Text.byteLength left = 9 := by
  have failed : Node.parse "é {{a}} {{ b }}".toList =
      .error ⟨.repeatedAssertion, 9, some ['b']⟩ :=
    eq_error (by decide +kernel)
  obtain ⟨empty, -⟩ | located := Node.pointsAt_of_parse failed rfl
  · cases empty
  · exact ⟨failed, located⟩

end StepMatch
