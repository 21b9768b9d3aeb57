import StepMatch.Expression.Grammar
import StepMatch.Expression.Slot
import StepMatch.Proofs.Outcomes

/-!
# The trees that expressions have

Reading an expression gives no odd trees: literal text is never empty, a sequence has at least two
parts and a choice at least two alternatives. Slots and bare choices stand outside all brackets, and
a slot has a name. Every step of the reading keeps this, of the parts that are complete and of those
that wait around an open bracket.
-/

namespace StepMatch

namespace Node

mutual

/-- Whether a negation occurs anywhere in the tree. -/
def containsNegation : Node → Bool
  | .sequence children => anyNegation children
  | .choice _ alternatives => anyNegation alternatives
  | .optional child => containsNegation child
  | .negation .. => true
  | .argument .. | .assertion .. | .literal _ | .wildcard => false

/-- Whether a negation occurs in any of the trees. -/
def anyNegation : List Node → Bool
  | [] => false
  | n :: ns => containsNegation n || anyNegation ns

end

/-- A tree without empty text, empty or lone sequences, and lone alternatives. -/
inductive Formed : Node → Prop where
  | sequence {children : List Node} (two : 2 ≤ children.length) (each : ∀ n ∈ children, Formed n) :
    Formed (.sequence children)
  | literal {text : Text} (ne : text ≠ []) : Formed (.literal text)
  | optional {child : Node} (inner : Formed child) : Formed (.optional child)
  | choice {delimiter : Delimiter} {alternatives : List Node} (two : 2 ≤ alternatives.length)
    (each : ∀ n ∈ alternatives, Formed n) : Formed (.choice delimiter alternatives)
  | negation {scope : NegationScope} {child : Node} (inner : Formed child) :
    Formed (.negation scope child)
  | wildcard : Formed .wildcard
  | argument {text : Text} {position : Nat} : Formed (.argument text position)
  | assertion {text : Text} {position : Nat} : Formed (.assertion text position)

/-- A tree that may stand inside brackets: one without slots and bare choices, in which a negation is
a phrase exactly if it is written with a blank. -/
inductive Inner : Node → Prop where
  | sequence {children : List Node} (two : 2 ≤ children.length) (each : ∀ n ∈ children, Inner n) :
    Inner (.sequence children)
  | literal {text : Text} (ne : text ≠ []) : Inner (.literal text)
  | optional {child : Node} (inner : Inner child) : Inner (.optional child)
  | choice {delimiter : Delimiter} {alternatives : List Node} (bracketed : delimiter ≠ .bare)
    (two : 2 ≤ alternatives.length) (each : ∀ n ∈ alternatives, Inner n) :
    Inner (.choice delimiter alternatives)
  | negation {scope : NegationScope} {child : Node}
    (scope_iff : scope = .phrase ↔ child.toExpression.any isBlank = true) (inner : Inner child) :
    Inner (.negation scope child)
  | wildcard : Inner .wildcard

/-- Literal text that is a single word. -/
def IsWord (n : Node) : Prop := ∃ w : Text, n = .literal w ∧ w ≠ [] ∧ ∀ c ∈ w, isInk c = true

/-- A part of an expression outside all brackets. -/
inductive Outer : Node → Prop where
  | inner {n : Node} (own : n.Inner) : Outer n
  | words {alternatives : List Node} (two : 2 ≤ alternatives.length)
    (each : ∀ n ∈ alternatives, n.IsWord) : Outer (.choice .bare alternatives)
  | argument {text : Text} {position : Nat} (trimmed : text.trim = text) (ne : text ≠ [])
    (name : (ArgumentSlot.ofText text position).name ≠ "")
    (typeName : (ArgumentSlot.ofText text position).typeName ≠ "") :
    Outer (.argument text position)
  | assertion {text : Text} {position : Nat} (trimmed : text.trim = text) (ne : text ≠ []) :
    Outer (.assertion text position)

/-- A tree that makes a pattern without looking ahead: one without slots and negations. -/
inductive Plain : Node → Prop where
  | sequence {children : List Node} (two : 2 ≤ children.length) (each : ∀ n ∈ children, Plain n) :
    Plain (.sequence children)
  | literal {text : Text} (ne : text ≠ []) : Plain (.literal text)
  | optional {child : Node} (inner : Plain child) : Plain (.optional child)
  | choice {delimiter : Delimiter} {alternatives : List Node} (two : 2 ≤ alternatives.length)
    (each : ∀ n ∈ alternatives, Plain n) : Plain (.choice delimiter alternatives)
  | wildcard : Plain .wildcard

theorem anySlot_eq_false {ns : List Node} :
    anySlot ns = false ↔ ∀ n ∈ ns, n.containsSlot = false := by
  induction ns with
  | nil => simp [anySlot]
  | cons n ns ih => simp [anySlot, ih]

theorem anyNegation_eq_false {ns : List Node} :
    anyNegation ns = false ↔ ∀ n ∈ ns, n.containsNegation = false := by
  induction ns with
  | nil => simp [anyNegation]
  | cons n ns ih => simp [anyNegation, ih]

theorem Formed.plain {n : Node} (h : n.Formed) (slotFree : n.containsSlot = false)
    (negationFree : n.containsNegation = false) : n.Plain := by
  induction h with
  | sequence two _ ih =>
    rw [containsSlot, anySlot_eq_false] at slotFree
    rw [containsNegation, anyNegation_eq_false] at negationFree
    exact .sequence two fun n hn => ih n hn (slotFree n hn) (negationFree n hn)
  | literal ne => exact .literal ne
  | optional _ ih =>
    rw [containsSlot] at slotFree
    rw [containsNegation] at negationFree
    exact .optional (ih slotFree negationFree)
  | choice two _ ih =>
    rw [containsSlot, anySlot_eq_false] at slotFree
    rw [containsNegation, anyNegation_eq_false] at negationFree
    exact .choice two fun n hn => ih n hn (slotFree n hn) (negationFree n hn)
  | negation => rw [containsNegation] at negationFree; cases negationFree
  | wildcard => exact .wildcard
  | argument | assertion => rw [containsSlot] at slotFree; cases slotFree

theorem Plain.formed {n : Node} (h : n.Plain) : n.Formed := by
  induction h with
  | sequence two _ ih => exact .sequence two ih
  | literal ne => exact .literal ne
  | optional _ ih => exact .optional ih
  | choice two _ ih => exact .choice two ih
  | wildcard => exact .wildcard

/-- Something is written for every tree. -/
theorem Formed.toExpression_ne_nil {n : Node} (h : n.Formed) : n.toExpression ≠ [] := by
  induction h with
  | @sequence children two _ ih =>
    obtain _ | ⟨n, ns⟩ := children
    · simp at two
    · simp [toExpression, concatExpression, ih n List.mem_cons_self]
  | @literal t ne =>
    obtain _ | ⟨c, t⟩ := t
    · exact absurd rfl ne
    · rw [toExpression, escapeLiteral, List.flatMap_cons]
      split <;> simp
  | @choice delimiter alternatives two _ _ =>
    obtain _ | ⟨n, _ | ⟨m, ns⟩⟩ := alternatives
    · simp at two
    · simp at two
    · simp [toExpression, choiceExpression]
  | negation =>
    rw [toExpression]
    split <;> simp
  | optional | wildcard | argument | assertion => simp [toExpression]

theorem Inner.formed {n : Node} (h : n.Inner) : n.Formed := by
  induction h with
  | sequence two _ ih => exact .sequence two ih
  | literal ne => exact .literal ne
  | optional _ ih => exact .optional ih
  | choice _ two _ ih => exact .choice two ih
  | negation _ _ ih => exact .negation ih
  | wildcard => exact .wildcard

theorem IsWord.inner {n : Node} (h : n.IsWord) : n.Inner := by
  obtain ⟨w, rfl, ne, -⟩ := h
  exact .literal ne

theorem Outer.formed {n : Node} (h : n.Outer) : n.Formed := by
  cases h with
  | inner own => exact own.formed
  | words two each => exact .choice two fun n hn => (each n hn).inner.formed
  | argument => exact .argument
  | assertion => exact .assertion

theorem formed_ofParts {ns : List Node} (ne : ns ≠ []) (each : ∀ n ∈ ns, n.Formed) :
    (ofParts ns).Formed := by
  rw [ofParts.eq_def]
  split
  · exact each _ List.mem_cons_self
  · rename_i lone
    refine .sequence ?_ each
    obtain _ | ⟨n, _ | ⟨m, ns⟩⟩ := ns
    · exact absurd rfl ne
    · exact absurd rfl (lone n)
    · simp

theorem inner_ofParts {ns : List Node} (ne : ns ≠ []) (each : ∀ n ∈ ns, n.Inner) :
    (ofParts ns).Inner := by
  have formed := formed_ofParts ne fun n hn => (each n hn).formed
  revert formed
  rw [ofParts.eq_def]
  split
  · exact fun _ => each _ List.mem_cons_self
  · intro formed
    cases formed with
    | sequence two => exact .sequence two each

theorem plain_ofParts {ns : List Node} (ne : ns ≠ []) (each : ∀ n ∈ ns, n.Plain) :
    (ofParts ns).Plain := by
  match ns with
  | [n] => exact each n List.mem_cons_self
  | n :: m :: ns => exact .sequence (by simp) each

/-- A run of text is cut into wildcards and literals. -/
theorem forall_carveFrom {P : Node → Prop} (wildcard : P .wildcard)
    (literal : ∀ t : Text, t ≠ [] → P (.literal t)) (fresh : Bool) (t : Text) :
    ∀ n ∈ carveFrom fresh t, P n := by
  induction t generalizing fresh with
  | nil => simp [carveFrom]
  | cons c t ih =>
    rw [carveFrom]
    split
    · exact List.forall_mem_cons.2 ⟨wildcard, ih false⟩
    · have later := ih (isBlank c)
      rw [consLiteral.eq_def]
      split
      · rename_i e
        rw [e, List.forall_mem_cons] at later
        exact List.forall_mem_cons.2 ⟨literal _ (List.cons_ne_nil _ _), later.2⟩
      · exact List.forall_mem_cons.2 ⟨literal _ (List.cons_ne_nil _ _), later⟩

theorem inner_carveFrom (fresh : Bool) (t : Text) : ∀ n ∈ carveFrom fresh t, n.Inner :=
  forall_carveFrom .wildcard (fun _ => .literal) fresh t

end Node

/-- Escaping literal text adds no blanks and takes none away. -/
theorem any_isBlank_escapeLiteral (t : Text) : (escapeLiteral t).any isBlank = t.any isBlank := by
  induction t with
  | nil => rfl
  | cons c t ih =>
    have head : (if isStructural c then ['\\', c] else [c]).any isBlank = isBlank c := by
      split
      · simp [show isBlank '\\' = false from rfl]
      · simp
    rw [escapeLiteral, List.flatMap_cons, List.any_append, head, List.any_cons]
    exact congrArg _ ih

theorem any_isBlank_of_ink {w : Text} (ink : ∀ c ∈ w, isInk c = true) : w.any isBlank = false := by
  rw [List.any_eq_false]
  intro c hc
  simpa [isInk] using ink c hc

theorem isWord_of_firstWord? {t word rest : Text} (h : firstWord? t = some (word, rest)) :
    (Node.literal word).IsWord := by
  rw [firstWord?.eq_def] at h
  split at h
  · cases h
  · rename_i ne
    cases h
    exact ⟨_, rfl, ne, fun c hc => List.all_eq_true.1 List.all_takeWhile c hc⟩

theorem isWord_of_lastWord? {t head word : Text} (h : lastWord? t = some (head, word)) :
    (Node.literal word).IsWord := by
  rw [lastWord?.eq_def] at h
  split at h
  · cases h
  · rename_i ne
    cases h
    refine ⟨_, rfl, by simpa using ne, fun c hc => ?_⟩
    exact List.all_eq_true.1 List.all_takeWhile c (List.mem_reverse.1 hc)

namespace Reading

open Node (Inner Outer)

/-- The part may stand inside the brackets that are open, if any. -/
def FitsIn : List Bracket → Node → Prop
  | [], n => n.Outer
  | _ :: _, n => n.Inner

/-- What waits around the open brackets, and in them, may stand there. -/
def Waits : List Bracket → Prop
  | [] => True
  | b :: outer =>
    b.delimiter ≠ .bare ∧ (∀ n ∈ b.before, FitsIn outer n) ∧
      (∀ ns ∈ b.finished, ∀ n ∈ ns, n.Inner) ∧ Waits outer

/-- The reading holds no odd trees. -/
structure IsFormed (s : Reading) : Prop where
  parts : ∀ n ∈ s.parts, FitsIn s.brackets n
  brackets : Waits s.brackets

variable {s s' : Reading}

theorem fitsIn_of_inner {n : Node} (h : n.Inner) (brackets : List Bracket) : FitsIn brackets n := by
  cases brackets with
  | nil => exact .inner h
  | cons b outer => exact h

theorem isFormed_start : start.IsFormed := ⟨by simp [start], trivial⟩

theorem IsFormed.push (h : s.IsFormed) {n : Node} (hn : FitsIn s.brackets n) :
    (s.push n).IsFormed :=
  ⟨List.forall_mem_cons.2 ⟨hn, h.parts⟩, h.brackets⟩

theorem IsFormed.pushText (h : s.IsFormed) (t : Text) : (s.pushText t).IsFormed := by
  refine ⟨fun n hn => ?_, h.brackets⟩
  obtain hn | hn := List.mem_append.1 hn
  · exact fitsIn_of_inner (Node.inner_carveFrom true t n (List.mem_reverse.1 hn)) _
  · exact h.parts n hn

theorem IsFormed.openBracket (h : s.IsFormed) (opener : Token) {delimiter : Delimiter}
    (bracketed : delimiter ≠ .bare) (negated : Bool) :
    (s.openBracket opener delimiter negated).IsFormed :=
  ⟨by simp [Reading.openBracket], bracketed, h.parts, by simp, h.brackets⟩

theorem IsFormed.nextAlternative (h : s.IsFormed) {b : Bracket} {outer : List Bracket}
    (e : s.brackets = b :: outer) : (s.nextAlternative b outer).IsFormed := by
  have waits := h.brackets
  have parts := h.parts
  rw [e] at waits parts
  obtain ⟨bracketed, before, finished, waits⟩ := waits
  refine ⟨by simp [Reading.nextAlternative], bracketed, before, ?_, waits⟩
  exact List.forall_mem_cons.2 ⟨fun n hn => parts n (List.mem_reverse.1 hn), finished⟩

theorem inner_of_bracket_node {b : Bracket} (bracketed : b.delimiter ≠ .bare) {last : List Node}
    {n : Node} (hl : ∀ m ∈ last, m.Inner) (hf : ∀ ns ∈ b.finished, ∀ m ∈ ns, m.Inner)
    (h : b.node last = .ok n) : n.Inner := by
  rw [Bracket.node.eq_def] at h
  split at h
  · split at h
    · cases h
    · rename_i ne
      have ne : last ≠ [] := by simpa using ne
      split at h <;> cases h
      · exact .optional (Node.inner_ofParts ne hl)
      · exact Node.inner_ofParts ne hl
  · rename_i finished some
    simp only at h
    split at h
    · cases h
    · rename_i full
      cases h
      refine .choice bracketed ?_ fun n hn => ?_
      · obtain ⟨f, fs, e⟩ := List.exists_cons_of_ne_nil some
        simp [e]
      · obtain ⟨ns, hns, rfl⟩ := List.mem_map.1 hn
        refine Node.inner_ofParts ?_ ?_
        · rintro rfl
          exact full (List.any_eq_true.2 ⟨[], hns, rfl⟩)
        · obtain rfl | hns := List.mem_cons.1 (List.mem_reverse.1 hns)
          · exact hl
          · exact hf ns hns

/-- A negation is a phrase exactly if its operand is written with a blank. -/
theorem inner_negate {n : Node} (h : n.Inner) : (negate n).Inner := by
  refine .negation ?_ h
  cases n.toExpression.any isBlank <;> simp

/-- The reading once its innermost bracket is closed, which stands for a node. -/
def afterBracket (s : Reading) (b : Bracket) (outer : List Bracket) (n : Node) : Reading :=
  let s' := { s with parts := b.before, brackets := outer }
  if b.negated then s'.push (negate n)
  else match n, outer with
    | .sequence children, [] => { s' with parts := children.reverse ++ b.before }
    | n, _ => s'.push n

/-- A bracket is closed by the token for it, if it stands for something. -/
theorem closeBracket_eq_ok_iff {token : Token} : s.closeBracket token = .ok s' ↔
    ∃ b outer n, s.brackets = b :: outer ∧ token.symbol = b.closer ∧
      b.node s.parts.reverse = .ok n ∧ s' = s.afterBracket b outer n := by
  rw [closeBracket.eq_def]
  cases brackets : s.brackets with
  | nil => simp
  | cons b outer =>
    by_cases closes : token.symbol = b.closer
    · cases made : b.node s.parts.reverse with
      | error fault => simp [closes, made, bind, Except.bind]
      | ok n =>
        simp only [closes, if_true, bind, Except.bind, pure, Except.pure, List.cons.injEq,
          made]
        unfold afterBracket
        constructor
        · intro h
          refine ⟨b, outer, n, ⟨rfl, rfl⟩, rfl, made, ?_⟩
          cases negated : b.negated <;> cases n <;> cases outer <;> simp_all
        · rintro ⟨b', outer', n', ⟨rfl, rfl⟩, -, made', h⟩
          obtain rfl := Except.ok.inj (made.symm.trans made')
          cases negated : b.negated <;> cases n <;> cases outer <;> simp_all
    · simp [closes]

theorem IsFormed.closeBracket (h : s.IsFormed) {token : Token}
    (e : s.closeBracket token = .ok s') : s'.IsFormed := by
  obtain ⟨b, outer, n, brackets, -, made, rfl⟩ := closeBracket_eq_ok_iff.1 e
  obtain ⟨parts, waits⟩ := h
  rw [brackets] at parts waits
  obtain ⟨bracketed, before, finished, waits⟩ := waits
  have inner : n.Inner := inner_of_bracket_node bracketed
    (fun m hm => parts m (List.mem_reverse.1 hm)) finished made
  have left : IsFormed { s with parts := b.before, brackets := outer } := ⟨before, waits⟩
  unfold afterBracket
  split
  · exact left.push (fitsIn_of_inner (inner_negate inner) outer)
  · split
    · cases inner with
      | sequence two each =>
        refine ⟨fun m hm => ?_, left.brackets⟩
        obtain hm | hm := List.mem_append.1 hm
        · exact .inner (each m (List.mem_reverse.1 hm))
        · exact left.parts m hm
    · exact left.push (fitsIn_of_inner inner _)

theorem IsFormed.chooseWord (h : s.IsFormed) (outside : s.brackets = []) {bar : Token} {t : Text}
    (e : s.chooseWord bar t = .ok s') : s'.IsFormed := by
  obtain ⟨parts, brackets, asserted⟩ := s
  obtain rfl : brackets = [] := outside
  rw [Reading.chooseWord.eq_def] at e
  simp only at e
  split at e
  · cases e
  · rename_i word rest first
    have choose : ∀ alternatives before : List Node, 1 ≤ alternatives.length →
        (∀ n ∈ alternatives, n.IsWord) → (∀ n ∈ before, n.Outer) →
        IsFormed (Reading.pushText
          ⟨.choice .bare (alternatives ++ [.literal word]) :: before, [], asserted⟩ rest) := by
      intro alternatives before one words outer
      have chosen : (Node.choice .bare (alternatives ++ [.literal word])).Outer := by
        refine .words ?_ fun n hn => ?_
        · rw [List.length_append, List.length_singleton]
          omega
        · obtain hn | hn := List.mem_append.1 hn
          · exact words n hn
          · exact List.mem_singleton.1 hn ▸ isWord_of_firstWord? first
      have left : IsFormed ⟨before, [], asserted⟩ := ⟨outer, h.brackets⟩
      exact (left.push chosen).pushText rest
    have each : ∀ n ∈ parts, n.Outer := h.parts
    split at e
    · rename_i alternatives before
      cases e
      obtain ⟨own, outer⟩ := List.forall_mem_cons.1 each
      cases own with
      | inner own =>
        cases own with
        | choice bracketed => exact absurd rfl bracketed
      | words two words => exact choose _ _ (by omega) words outer
    · rename_i l before
      obtain ⟨-, outer⟩ := List.forall_mem_cons.1 each
      have lone : ∀ {head left : Text}, lastWord? l = some (head, left) →
          ∀ n ∈ [Node.literal left], n.IsWord := by
        intro head left last n hn
        exact List.mem_singleton.1 hn ▸ isWord_of_lastWord? last
      split at e
      · cases e
      · rename_i left last
        cases e
        exact choose _ _ (Nat.le_refl 1) (lone last) outer
      · rename_i head left ne last
        cases e
        refine choose _ _ (Nat.le_refl 1) (lone last) (List.forall_mem_cons.2 ⟨?_, outer⟩)
        exact .inner (.literal ne)
    · cases e

theorem IsFormed.negateWord (h : s.IsFormed) {caret : Token} {t : Text}
    (e : s.negateWord caret t = .ok s') : s'.IsFormed := by
  rw [Reading.negateWord.eq_def] at e
  split at e
  · cases e
  · rename_i word rest first
    cases e
    obtain ⟨w, same, ne, ink⟩ := isWord_of_firstWord? first
    cases same
    have blankFree : (Node.literal word).toExpression.any isBlank = false := by
      rw [Node.toExpression, any_isBlank_escapeLiteral]
      exact any_isBlank_of_ink ink
    have negated : (Node.negation .word (.literal word)).Inner :=
      .negation (by simp [blankFree]) (.literal ne)
    exact (h.push (fitsIn_of_inner negated _)).pushText _

/-- An argument that is not malformed has a name and a type. -/
theorem named_of_not_malformed {t : Text} {position : Nat} (trimmed : t.trim = t) (ne : t ≠ [])
    (h : isMalformedArgument t = false) : (ArgumentSlot.ofText t position).name ≠ "" ∧
      (ArgumentSlot.ofText t position).typeName ≠ "" := by
  have written : ∀ {u : Text}, u ≠ [] → u.asString ≠ "" := by
    intro u ne e
    exact ne (by simpa [Text.asString] using e)
  rw [ArgumentSlot.ofText]
  rw [isMalformedArgument.eq_def] at h
  split at h
  · rename_i name typeName split
    rw [split]
    simp only [Bool.or_eq_false_iff, List.isEmpty_eq_false_iff] at h
    exact ⟨written h.1, written h.2⟩
  · rename_i split
    rw [split]
    simp only [Option.getD_none, trimmed]
    exact ⟨written ne, written ne⟩

theorem IsFormed.pushSlot (h : s.IsFormed) (outside : s.brackets = []) {opener : Token}
    {body : Text} (e : s.pushSlot opener body = .ok s') : s'.IsFormed := by
  have push : ∀ {n : Node}, n.Outer → (s.push n).IsFormed := by
    intro n outer
    refine h.push ?_
    rw [outside]
    exact outer
  have trimmed := Text.trim_trim body
  rw [Reading.pushSlot.eq_def] at e
  simp only at e
  split at e
  · split at e
    · cases e
    · rename_i ne
      split at e <;> cases e
      have outer : (Node.assertion body.trim opener.start).Outer :=
        .assertion trimmed (by simpa using ne)
      have pushed := push outer
      exact ⟨pushed.parts, pushed.brackets⟩
  · split at e
    · cases e
    · rename_i ne
      have ne : body.trim ≠ [] := by simpa using ne
      split at e <;> cases e
      rename_i wellNamed
      obtain ⟨name, typeName⟩ :=
        named_of_not_malformed trimmed ne (Bool.eq_false_iff.2 wellNamed)
      exact push (.argument trimmed ne name typeName)

/-- No step of a reading makes an odd tree, and so no reading does. -/
theorem IsFormed.run (h : s.IsFormed) {tokens : List Token} {parts : List Node}
    (e : s.run tokens = .ok parts) : ∀ n ∈ parts, n.Outer := by
  fun_induction Reading.run s tokens with
  | case1 s outside =>
    cases e
    intro n hn
    have own := h.parts n (List.mem_reverse.1 hn)
    rwa [outside] at own
  | case3 s token rest t symbol ih => exact ih (h.pushText t) e
  | case4 s token rest symbol ih | case5 s token rest symbol ih =>
    exact ih (h.openBracket _ (by decide) _) e
  | case6 s token rest symbol ih | case7 s token rest symbol ih =>
    obtain ⟨s', closed, e⟩ := ok_of_bind e
    exact ih s' (h.closeBracket closed) e
  | case8 s token symbol b outer rest brackets ih => exact ih (h.nextAlternative brackets) e
  | case9 s token symbol t start stop rest outside ih =>
    obtain ⟨s', chosen, e⟩ := ok_of_bind e
    exact ih s' (h.chooseWord outside chosen) e
  | case11 s token symbol t start stop rest ih =>
    obtain ⟨s', negated, e⟩ := ok_of_bind e
    exact ih s' (h.negateWord negated) e
  | case12 s token symbol start stop rest ih => exact ih (h.openBracket _ (by decide) _) e
  | case14 s token symbol outside t start stop start' stop' rest ih
  | case18 s token symbol outside t start stop start' stop' rest ih =>
    obtain ⟨s', pushed, e⟩ := ok_of_bind e
    exact ih s' (h.pushSlot (List.isEmpty_iff.1 outside) pushed) e
  | _ => cases e

end Reading

/-- A tree stands somewhere in another one, or is it. -/
inductive Node.Within (n : Node) : Node → Prop where
  | self : Within n n
  | sequence {children : List Node} {m : Node} (mem : m ∈ children) (inner : Within n m) :
    Within n (.sequence children)
  | optional {child : Node} (inner : Within n child) : Within n (.optional child)
  | choice {delimiter : Delimiter} {alternatives : List Node} {m : Node} (mem : m ∈ alternatives)
    (inner : Within n m) : Within n (.choice delimiter alternatives)
  | negation {scope : NegationScope} {child : Node} (inner : Within n child) :
    Within n (.negation scope child)

theorem Node.Formed.within {n m : Node} (formed : m.Formed) (h : n.Within m) : n.Formed := by
  induction h with
  | self => exact formed
  | sequence mem _ ih =>
    cases formed with
    | sequence _ each => exact ih (each _ mem)
  | optional _ ih =>
    cases formed with
    | optional inner => exact ih inner
  | choice mem _ ih =>
    cases formed with
    | choice _ each => exact ih (each _ mem)
  | negation _ ih =>
    cases formed with
    | negation inner => exact ih inner

/-- The parts of a tree are as well formed as the tree. -/
theorem Node.Formed.of_mem_parts {n m : Node} (formed : n.Formed) (hm : m ∈ n.parts) : m.Formed := by
  cases formed with
  | sequence _ each => exact each m hm
  | _ =>
    obtain rfl := List.mem_singleton.1 hm
    constructor <;> assumption

/-- An expression is read by way of its tokens. -/
theorem Node.parse_of_tokens {expression : Text} {tokens : List Token} {n : Node}
    (scanned : (Token.scan expression).toOption = some tokens) (read : ofTokens tokens = .ok n) :
    parse expression = .ok n := by
  obtain ⟨tokens', e, same⟩ := exists_ok (x := Token.scan expression) (p := (· == tokens))
    (by rw [scanned]; simp)
  rw [parse, e, eq_of_beq same]
  exact read

/-- The parts of a list of tokens stand outside all brackets. -/
theorem Node.outer_of_run {tokens : List Token} {parts : List Node}
    (h : Reading.start.run tokens = .ok parts) : ∀ n ∈ parts, n.Outer :=
  Reading.isFormed_start.run h

/-- The tree of an expression is no odd one. -/
theorem Node.formed_of_parse {expression : Text} {n : Node} (h : parse expression = .ok n) :
    n.Formed := by
  obtain ⟨tokens, -, h⟩ := ok_of_bind h
  obtain ⟨parts, run, h⟩ := ok_of_bind h
  split at h
  · cases h
  · rename_i some
    cases h
    exact formed_ofParts (by simpa using some) fun n hn => (outer_of_run run n hn).formed

end StepMatch
