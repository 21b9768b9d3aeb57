import StepMatch.Pattern.Fragment
import StepMatch.Proofs.Expression.Tiling

/-!
# The slots of an expression

The slots of the tree of an expression are the ones that its tokens write, in order: a slot is opened,
filled with a run of text and closed. Each carries the byte offset of its opening brace. All of them
stand outside the brackets, so no slot is met where the patterns of an expression are made, and an
expression that has a tree has fragments.
-/

namespace StepMatch

namespace Node

/-- Whether the node is an argument or an assertion slot. -/
def isSlot : Node → Bool
  | .argument .. | .assertion .. => true
  | _ => false

/-- Whether the node is an assertion slot. -/
def isAssertion : Node → Bool
  | .assertion .. => true
  | _ => false

/-- The byte offset that a slot carries. -/
def position? : Node → Option Nat
  | .argument _ position | .assertion _ position => some position
  | _ => none

/-- If the node is a slot, the expression has its opening brace at the offset that it carries, and up
to the closing brace the text of the slot. -/
def StandsIn (expression : Text) : Node → Prop
  | .argument t position => ∃ before body raw after,
    expression = before ++ '{' :: body ++ '}' :: after ∧ before.byteLength = position ∧
      Spells body raw ∧ raw.trim = t
  | .assertion t position => ∃ before body raw after,
    expression = before ++ '{' :: '{' :: body ++ '}' :: '}' :: after ∧
      before.byteLength = position ∧ Spells body raw ∧ raw.trim = t
  | _ => True

/-- What every tree of an expression is like. Slots and bare choices are found among its parts only,
which are the tree itself or what stands right under its root. -/
structure IsWellFormed (expression : Text) (n : Node) : Prop where
  formed : n.Formed
  outer : ∀ m ∈ n.parts, m.Outer
  standsIn : ∀ m ∈ n.parts, m.StandsIn expression
  increasing : (n.parts.filterMap position?).Pairwise (· < ·)
  assertions : n.parts.countP isAssertion ≤ 1

theorem Inner.isSlot {n : Node} (h : n.Inner) : n.isSlot = false := by
  cases h <;> rfl

theorem IsWord.isSlot {n : Node} (h : n.IsWord) : n.isSlot = false := h.inner.isSlot

end Node

namespace Token

/-- The slot that a token opens, if a run of text and the end of such a slot come after it. -/
def slotAt? (opener : Token) : List Token → Option Node
  | ⟨.text t, _, _⟩ :: ⟨closer, _, _⟩ :: _ =>
    match opener.symbol, closer with
    | .startArgument, .endArgument => some (.argument t.trim opener.start)
    | .startAssertion, .endAssertion => some (.assertion t.trim opener.start)
    | _, _ => none
  | _ => none

/-- The slots that tokens write. -/
def slots : List Token → List Node
  | [] => []
  | token :: rest => (slotAt? token rest).toList ++ slots rest

/-- The slots that tokens write are the ones with their braces in the text of the tokens. -/
theorem standsIn_of_tiled {pos : Nat} {rest : Text} {tokens : List Token}
    (tiled : Tiled pos rest tokens) {before : Text} (start : before.byteLength = pos) :
    ∀ n ∈ slots tokens, n.StandsIn (before ++ rest) := by
  induction tiled generalizing before with
  | nil => simp [slots]
  | @cons pos symbol source rest later own others ih =>
    intro n hn
    rw [slots] at hn
    obtain hn | hn := List.mem_append.1 hn
    · have opened : slotAt? ⟨symbol, pos, pos + source.byteLength⟩ later = some n := by simpa using hn
      rw [slotAt?.eq_def] at opened
      split at opened
      · -- what the tokens after the opener are read from
        obtain _ | ⟨text, others⟩ := others
        obtain _ | @⟨_, _, _, after, _, closed, -⟩ := others
        obtain ⟨-, spelled⟩ := text
        split at opened <;> cases opened
        · rename_i opens _
          obtain rfl : symbol = .startArgument := opens
          obtain rfl : source = ['{'] := own
          obtain rfl := closed
          exact ⟨before, _, _, after, by simp [Symbol.describe], start, spelled, rfl⟩
        · rename_i opens _
          obtain rfl : symbol = .startAssertion := opens
          obtain rfl : source = ['{', '{'] := own
          obtain rfl := closed
          exact ⟨before, _, _, after, by simp [Symbol.describe], start, spelled, rfl⟩
      · cases opened
    · rw [← List.append_assoc]
      exact ih (by simp [start]) n hn

/-- The slots that tokens write carry larger and larger offsets. -/
theorem increasing_of_tiled {pos : Nat} {rest : Text} {tokens : List Token}
    (tiled : Tiled pos rest tokens) :
    ((slots tokens).filterMap Node.position?).Pairwise (· < ·) ∧
      ∀ p ∈ (slots tokens).filterMap Node.position?, pos ≤ p := by
  induction tiled with
  | nil => simp [slots]
  | @cons pos symbol source rest later own others ih =>
    obtain ⟨increasing, bounded⟩ := ih
    have bounded' : ∀ p ∈ (slots later).filterMap Node.position?, pos ≤ p := by
      intro p hp
      have := bounded p hp
      omega
    have opened : slotAt? ⟨symbol, pos, pos + source.byteLength⟩ later = none ∨
        0 < source.byteLength ∧ ∃ n, slotAt? ⟨symbol, pos, pos + source.byteLength⟩ later = some n ∧
          n.position? = some pos := by
      rw [slotAt?.eq_def]
      split
      · split
        · rename_i opens
          obtain rfl : symbol = .startArgument := opens
          obtain rfl : source = ['{'] := own
          exact .inr ⟨by decide, _, rfl, rfl⟩
        · rename_i opens
          obtain rfl : symbol = .startAssertion := opens
          obtain rfl : source = ['{', '{'] := own
          exact .inr ⟨by decide, _, rfl, rfl⟩
        · exact .inl rfl
      · exact .inl rfl
    rw [slots]
    obtain none | ⟨wide, n, opened, position⟩ := opened
    · rw [none]
      exact ⟨increasing, bounded'⟩
    · rw [opened]
      simp only [Option.toList_some, List.singleton_append, List.filterMap_cons, position,
        List.pairwise_cons, List.forall_mem_cons]
      refine ⟨⟨fun p hp => ?_, increasing⟩, Nat.le_refl pos, bounded'⟩
      have := bounded p hp
      omega

/-- A token that opens no slot writes none. -/
theorem slots_cons {token : Token} (rest : List Token) (argument : token.symbol ≠ .startArgument)
    (assertion : token.symbol ≠ .startAssertion) : slots (token :: rest) = slots rest := by
  have none : slotAt? token rest = none := by
    rw [slotAt?.eq_def]
    split
    · split
      · exact absurd ‹_› argument
      · exact absurd ‹_› assertion
      · rfl
    · rfl
  rw [slots, none]
  rfl

end Token

namespace Reading

/-- The parts outside all brackets, last one first. -/
def outermost : List Bracket → List Node → List Node
  | [], parts => parts
  | b :: outer, _ => outermost outer b.before

/-- The slots among the parts outside all brackets, last one first. -/
def slots (s : Reading) : List Node := (outermost s.brackets s.parts).filter Node.isSlot

/-- A step of a reading that reads no slot. -/
structure Passes (s s' : Reading) : Prop where
  slots : s'.slots = s.slots
  asserted : s'.asserted = s.asserted

variable {s s' : Reading}

/-- Parts that are no slots may take the place of others. -/
theorem slots_mk {before : List Node} (brackets : List Bracket) (asserted : Bool)
    {added : List Node} (passed : ∀ n ∈ added, n.isSlot = false) :
    slots ⟨added ++ before, brackets, asserted⟩ = slots ⟨before, brackets, asserted⟩ := by
  cases brackets with
  | nil =>
    have none : added.filter Node.isSlot = [] := List.filter_eq_nil_iff.2 (by simpa using passed)
    simp [slots, outermost, none]
  | cons b outer => rfl

theorem passes_push {n : Node} (passed : n.isSlot = false) : Passes s (s.push n) :=
  ⟨slots_mk s.brackets s.asserted (List.forall_mem_singleton.2 passed), rfl⟩

theorem passes_pushText (t : Text) : Passes s (s.pushText t) := by
  refine ⟨slots_mk s.brackets s.asserted fun n hn => ?_, rfl⟩
  exact (Node.inner_carveFrom true t n (List.mem_reverse.1 hn)).isSlot

theorem Passes.trans {s'' : Reading} (h : Passes s s') (h' : Passes s' s'') : Passes s s'' :=
  ⟨h'.slots.trans h.slots, h'.asserted.trans h.asserted⟩

theorem passes_openBracket (opener : Token) (delimiter : Delimiter) (negated : Bool) :
    Passes s (s.openBracket opener delimiter negated) := ⟨rfl, rfl⟩

theorem passes_nextAlternative {b : Bracket} {outer : List Bracket}
    (e : s.brackets = b :: outer) : Passes s (s.nextAlternative b outer) := by
  refine ⟨?_, rfl⟩
  rw [slots, slots, e]
  rfl

theorem passes_closeBracket (formed : s.IsFormed) {token : Token}
    (e : s.closeBracket token = .ok s') : Passes s s' := by
  obtain ⟨b, outer, n, brackets, -, made, rfl⟩ := closeBracket_eq_ok_iff.1 e
  obtain ⟨parts, waits⟩ := formed
  rw [brackets] at parts waits
  obtain ⟨bracketed, -, finished, -⟩ := waits
  have inner : n.Inner := inner_of_bracket_node bracketed
    (fun m hm => parts m (List.mem_reverse.1 hm)) finished made
  have left : Passes s { s with parts := b.before, brackets := outer } := by
    refine ⟨?_, rfl⟩
    rw [slots, slots, brackets]
    rfl
  unfold afterBracket
  split
  · exact left.trans (passes_push (inner_negate inner).isSlot)
  · split
    · cases inner with
      | sequence _ each =>
        refine left.trans ⟨slots_mk [] s.asserted fun m hm => ?_, rfl⟩
        exact (each m (List.mem_reverse.1 hm)).isSlot
    · exact left.trans (passes_push inner.isSlot)

theorem passes_chooseWord (outside : s.brackets = []) {bar : Token} {t : Text}
    (e : s.chooseWord bar t = .ok s') : Passes s s' := by
  obtain ⟨parts, brackets, asserted⟩ := s
  obtain rfl : brackets = [] := outside
  rw [chooseWord.eq_def] at e
  simp only at e
  split at e
  · cases e
  · rename_i word rest first
    have choose : ∀ (n n' : Node) (before : List Node), n.isSlot = false → n'.isSlot = false →
        Passes ⟨n :: before, [], asserted⟩ (Reading.pushText ⟨n' :: before, [], asserted⟩ rest) := by
      intro n n' before passed passed'
      have swapped : Passes ⟨n :: before, [], asserted⟩ ⟨n' :: before, [], asserted⟩ :=
        ⟨by simp [slots, outermost, passed, passed'], rfl⟩
      exact swapped.trans (passes_pushText rest)
    split at e
    · cases e
      exact choose _ _ _ rfl rfl
    · rename_i l before
      split at e
      · cases e
      · cases e
        exact choose _ _ _ rfl rfl
      · cases e
        refine Passes.trans ?_ (passes_pushText rest)
        exact ⟨by simp [slots, outermost, Node.isSlot], rfl⟩
    · cases e

theorem passes_negateWord {caret : Token} {t : Text} (e : s.negateWord caret t = .ok s') :
    Passes s s' := by
  rw [negateWord.eq_def] at e
  split at e
  · cases e
  · cases e
    exact (passes_push rfl).trans (passes_pushText _)

/-- A slot that is read is the one that the tokens write, and a second assertion is not read. -/
theorem slots_of_pushSlot (outside : s.brackets = []) {opener : Token} {t : Text} {closer : Symbol}
    (opens : opener.symbol = .startArgument ∨ opener.symbol = .startAssertion)
    (closes : closer = (slotShape opener).1) (start stop start' stop' : Nat) (rest : List Token)
    (e : s.pushSlot opener t = .ok s') :
    ∃ n, Token.slotAt? opener (⟨.text t, start, stop⟩ :: ⟨closer, start', stop'⟩ :: rest) = some n ∧
      s'.slots = n :: s.slots ∧ s'.asserted.toNat = s.asserted.toNat + n.isAssertion.toNat := by
  obtain ⟨parts, brackets, asserted⟩ := s
  obtain rfl : brackets = [] := outside
  obtain ⟨symbol, first, last⟩ := opener
  subst closes
  rw [pushSlot.eq_def] at e
  obtain rfl | rfl : symbol = .startArgument ∨ symbol = .startAssertion := opens
  · simp only [reduceCtorEq, if_false] at e
    split at e
    · cases e
    · split at e <;> cases e
      exact ⟨.argument t.trim first, rfl, rfl, rfl⟩
  · simp only [if_true] at e
    split at e
    · cases e
    · split at e
      · cases e
      · rename_i fresh
        cases e
        obtain rfl : asserted = false := by simpa using fresh
        exact ⟨.assertion t.trim first, rfl, rfl, rfl⟩

/-- The slots of the parts that a reading ends with are the ones read before, and the ones that the
tokens write. Of all these at most one is an assertion. -/
theorem slots_of_run (formed : s.IsFormed) {tokens : List Token} {parts : List Node}
    (e : s.run tokens = .ok parts) :
    parts.filter Node.isSlot = s.slots.reverse ++ Token.slots tokens ∧
      s.asserted.toNat + (Token.slots tokens).countP Node.isAssertion ≤ 1 := by
  -- a step that reads no slot leaves it to the tokens after it
  have pass : ∀ {s s' : Reading} {tokens tokens' : List Token}, Passes s s' →
      Token.slots tokens = Token.slots tokens' →
      (parts.filter Node.isSlot = s'.slots.reverse ++ Token.slots tokens' ∧
        s'.asserted.toNat + (Token.slots tokens').countP Node.isAssertion ≤ 1) →
      parts.filter Node.isSlot = s.slots.reverse ++ Token.slots tokens ∧
        s.asserted.toNat + (Token.slots tokens).countP Node.isAssertion ≤ 1 := by
    intro s s' tokens tokens' passes same h
    rwa [same, ← passes.slots, ← passes.asserted]
  fun_induction Reading.run s tokens with
  | case1 s outside =>
    cases e
    refine ⟨?_, ?_⟩
    · rw [slots, outside]
      simp [outermost, Token.slots]
    · simpa [Token.slots] using Bool.toNat_le s.asserted
  | case3 s token rest t symbol ih =>
    refine pass (passes_pushText t) ?_ (ih (formed.pushText t) e)
    exact Token.slots_cons rest (by simp [symbol]) (by simp [symbol])
  | case4 s token rest symbol ih | case5 s token rest symbol ih =>
    refine pass (passes_openBracket token _ false) ?_ (ih (formed.openBracket _ (by decide) _) e)
    exact Token.slots_cons rest (by simp [symbol]) (by simp [symbol])
  | case6 s token rest symbol ih | case7 s token rest symbol ih =>
    obtain ⟨s', closed, e⟩ := ok_of_bind e
    refine pass (passes_closeBracket formed closed) ?_ (ih s' (formed.closeBracket closed) e)
    exact Token.slots_cons rest (by simp [symbol]) (by simp [symbol])
  | case8 s token symbol b outer rest brackets ih =>
    refine pass (passes_nextAlternative brackets) ?_ (ih (formed.nextAlternative brackets) e)
    exact Token.slots_cons rest (by simp [symbol]) (by simp [symbol])
  | case9 s token symbol t start stop rest outside ih =>
    obtain ⟨s', chosen, e⟩ := ok_of_bind e
    refine pass (passes_chooseWord outside chosen) ?_ (ih s' (formed.chooseWord outside chosen) e)
    rw [Token.slots_cons _ (by simp [symbol]) (by simp [symbol])]
    exact Token.slots_cons rest (by simp) (by simp)
  | case11 s token symbol t start stop rest ih =>
    obtain ⟨s', negated, e⟩ := ok_of_bind e
    refine pass (passes_negateWord negated) ?_ (ih s' (formed.negateWord negated) e)
    rw [Token.slots_cons _ (by simp [symbol]) (by simp [symbol])]
    exact Token.slots_cons rest (by simp) (by simp)
  | case12 s token symbol start stop rest ih =>
    refine pass (passes_openBracket _ _ true) ?_ (ih (formed.openBracket _ (by decide) _) e)
    rw [Token.slots_cons _ (by simp [symbol]) (by simp [symbol])]
    exact Token.slots_cons rest (by simp) (by simp)
  | case14 s token symbol outside t start stop start' stop' rest ih
  | case18 s token symbol outside t start stop start' stop' rest ih =>
    obtain ⟨s', pushed, e⟩ := ok_of_bind e
    have outside := List.isEmpty_iff.1 outside
    obtain ⟨found, count⟩ := ih s' (formed.pushSlot outside pushed) e
    obtain ⟨n, opened, added, asserted⟩ := slots_of_pushSlot outside (by simp [symbol]) rfl start stop
      start' stop' rest pushed
    have closes : Token.slots (⟨(slotShape token).1, start', stop'⟩ :: rest) = Token.slots rest := by
      apply Token.slots_cons <;> rw [slotShape] <;> split <;> simp
    have written : Token.slots (token :: ⟨.text t, start, stop⟩ ::
        ⟨(slotShape token).1, start', stop'⟩ :: rest) = n :: Token.slots rest := by
      rw [Token.slots, opened, Token.slots_cons _ (by simp) (by simp), closes]
      rfl
    rw [written, List.countP_cons]
    rw [added, List.reverse_cons, List.append_assoc] at found
    refine ⟨found, ?_⟩
    cases h : n.isAssertion <;> simp [h] at asserted ⊢ <;> omega
  | _ => cases e

end Reading

namespace Node

/-- The slots of a tree are those of the parts that it was made of. -/
theorem filter_isSlot_parts {parts : List Node} (outer : ∀ n ∈ parts, n.Outer) :
    (ofParts parts).parts.filter isSlot = parts.filter isSlot ∧
      ∀ n ∈ (ofParts parts).parts, n.Outer := by
  rw [ofParts.eq_def]
  split
  · rename_i n
    cases n with
    | sequence children =>
      cases outer _ List.mem_cons_self with
      | inner own =>
        cases own with
        | sequence _ each =>
          refine ⟨?_, fun n hn => .inner (each n hn)⟩
          have none : children.filter isSlot = [] :=
            List.filter_eq_nil_iff.2 fun n hn => by simp [(each n hn).isSlot]
          simp [Node.parts, none, isSlot]
    | _ => exact ⟨rfl, outer⟩
  · exact ⟨rfl, outer⟩

/-- What carries an offset is a slot, and so is an assertion. -/
theorem filterMap_position?_filter (ns : List Node) :
    (ns.filter isSlot).filterMap position? = ns.filterMap position? := by
  induction ns with
  | nil => rfl
  | cons n ns ih =>
    rw [List.filter_cons, List.filterMap_cons]
    cases n <;> simpa [isSlot, position?] using ih

theorem countP_isAssertion_filter (ns : List Node) :
    (ns.filter isSlot).countP isAssertion = ns.countP isAssertion := by
  induction ns with
  | nil => rfl
  | cons n ns ih =>
    rw [List.filter_cons, List.countP_cons]
    cases n <;> simpa [isSlot, isAssertion, List.countP_cons] using ih

/-- The slots among the parts of a tree are those that the tokens of the expression write. -/
theorem filter_isSlot_of_parse {expression : Text} {n : Node} (h : parse expression = .ok n) :
    ∃ tokens, Token.scan expression = .ok tokens ∧ n.parts.filter isSlot = Token.slots tokens ∧
      (Token.slots tokens).countP isAssertion ≤ 1 ∧ ∀ m ∈ n.parts, m.Outer := by
  obtain ⟨tokens, scanned, h⟩ := ok_of_bind h
  obtain ⟨parts, run, h⟩ := ok_of_bind h
  obtain ⟨found, count⟩ := Reading.slots_of_run Reading.isFormed_start run
  have found : parts.filter isSlot = Token.slots tokens := found
  split at h
  · cases h
  cases h
  obtain ⟨same, outer⟩ := filter_isSlot_parts (outer_of_run run)
  exact ⟨tokens, scanned, same.trans found, by omega, outer⟩

/-- The tree of an expression is well formed. -/
theorem isWellFormed_of_parse {expression : Text} {n : Node} (h : parse expression = .ok n) :
    n.IsWellFormed expression := by
  obtain ⟨tokens, scanned, same, count, outer⟩ := filter_isSlot_of_parse h
  have tiled := tiled_of_scanFrom scanned
  refine ⟨formed_of_parse h, outer, fun m hm => ?_, ?_, ?_⟩
  · by_cases slot : m.isSlot = true
    · have read := List.mem_filter.2 ⟨hm, slot⟩
      rw [same] at read
      exact Token.standsIn_of_tiled tiled Text.byteLength_nil m read
    · cases m <;> trivial
  · rw [← filterMap_position?_filter, same]
    exact (Token.increasing_of_tiled tiled).1
  · rwa [← countP_isAssertion_filter, same]

theorem Inner.containsSlot {n : Node} (h : n.Inner) : n.containsSlot = false := by
  induction h with
  | sequence _ _ ih => rw [Node.containsSlot, anySlot_eq_false]; exact ih
  | choice _ _ _ ih => rw [Node.containsSlot, anySlot_eq_false]; exact ih
  | optional _ ih => rw [Node.containsSlot]; exact ih
  | negation _ _ ih => rw [Node.containsSlot]; exact ih
  | literal | wildcard => rw [Node.containsSlot]

theorem Outer.containsSlot {n : Node} (h : n.Outer) (passed : n.isSlot = false) :
    n.containsSlot = false := by
  cases h with
  | inner own => exact own.containsSlot
  | words _ each =>
    rw [Node.containsSlot, anySlot_eq_false]
    exact fun n hn => (each n hn).inner.containsSlot
  | argument | assertion => cases passed

end Node

namespace Pattern

/-- Trees that have patterns merge into one. -/
theorem exists_concat {ns : List Node} (each : ∀ n ∈ ns, ∃ p, ofNode n = .ok p)
    (merged : Option Pattern) : ∃ p, concat merged ns = .ok p := by
  induction ns generalizing merged with
  | nil => exact ⟨_, rfl⟩
  | cons n ns ih =>
    obtain ⟨⟨p, own⟩, each⟩ := List.forall_mem_cons.1 each
    rw [concat, own]
    exact ih each _

theorem exists_regexes {ns : List Node} (each : ∀ n ∈ ns, ∃ p, ofNode n = .ok p) :
    ∃ rs, regexes ns = .ok rs := by
  induction ns with
  | nil => exact ⟨_, rfl⟩
  | cons n ns ih =>
    obtain ⟨⟨p, own⟩, each⟩ := List.forall_mem_cons.1 each
    obtain ⟨rs, others⟩ := ih each
    exact ⟨p.regex :: rs, by rw [regexes, own, others]; rfl⟩

/-- A tree without slots has a pattern. -/
theorem exists_ofNode {n : Node} (formed : n.Formed) (slotFree : n.containsSlot = false) :
    ∃ p, ofNode n = .ok p := by
  induction formed with
  | sequence _ _ ih =>
    rw [Node.containsSlot, Node.anySlot_eq_false] at slotFree
    rw [ofNode]
    exact exists_concat (fun n hn => ih n hn (slotFree n hn)) none
  | literal => exact ⟨_, by rw [ofNode]⟩
  | optional _ ih =>
    rw [Node.containsSlot] at slotFree
    obtain ⟨p, own⟩ := ih slotFree
    exact ⟨_, by rw [ofNode, own]; rfl⟩
  | choice _ _ ih =>
    rw [Node.containsSlot, Node.anySlot_eq_false] at slotFree
    obtain ⟨rs, inner⟩ := exists_regexes fun n hn => ih n hn (slotFree n hn)
    exact ⟨_, by rw [ofNode, inner]; rfl⟩
  | negation _ ih =>
    rw [Node.containsSlot] at slotFree
    obtain ⟨p, own⟩ := ih slotFree
    exact ⟨_, by rw [ofNode, own]; rfl⟩
  | wildcard => exact ⟨_, by rw [ofNode]⟩
  | argument | assertion => rw [Node.containsSlot] at slotFree; cases slotFree

end Pattern

namespace Fragment

/-- A part outside all brackets makes a fragment, or extends the last one. -/
theorem exists_push {n : Node} (outer : n.Outer) (before : List Fragment) :
    ∃ after, push before n = .ok after := by
  cases passed : n.isSlot with
  | true => cases n <;> first | exact ⟨_, rfl⟩ | cases passed
  | false =>
    obtain ⟨p, own⟩ := Pattern.exists_ofNode outer.formed (outer.containsSlot passed)
    rw [push.eq_def]
    split
    · exact ⟨_, rfl⟩
    · exact ⟨_, rfl⟩
    · exact ⟨_, by rw [own]; rfl⟩

theorem exists_foldlM {ns : List Node} (outer : ∀ n ∈ ns, n.Outer) (before : List Fragment) :
    ∃ after, ns.foldlM push before = .ok after := by
  induction ns generalizing before with
  | nil => exact ⟨_, rfl⟩
  | cons n ns ih =>
    obtain ⟨own, outer⟩ := List.forall_mem_cons.1 outer
    obtain ⟨after, pushed⟩ := exists_push own before
    rw [List.foldlM_cons, pushed]
    exact ih outer after

end Fragment

/-- Every tree of an expression is well formed, and where there is a tree there are fragments: making
them meets no slot inside brackets. -/
theorem isWellFormed_and_fragments (expression : Text) :
    (∀ n, Node.parse expression = .ok n → n.IsWellFormed expression) ∧
      ∀ fault, Fragment.ofExpression expression = .error fault ↔
        Node.parse expression = .error fault := by
  refine ⟨fun n parsed => Node.isWellFormed_of_parse parsed, fun fault => ?_⟩
  rw [Fragment.ofExpression]
  cases parsed : Node.parse expression with
  | error fault' => simp [Except.bind]
  | ok n =>
    obtain ⟨after, made⟩ := Fragment.exists_foldlM (Node.isWellFormed_of_parse parsed).outer []
    have fragments : (Except.ok n : Except Fault Node).bind Fragment.ofNode = .ok after.reverse := by
      show Fragment.ofNode n = _
      rw [Fragment.ofNode, made]
      rfl
    rw [fragments]
    simp

/-- With a slot of either kind, a bare choice and a negated phrase. -/
theorem isWellFormed_of_order : ∃ n,
    Node.parse "add {n:integer} (big) red|green ^[bad ones] {{check}}".toList = .ok n ∧
      n.IsWellFormed "add {n:integer} (big) red|green ^[bad ones] {{check}}".toList ∧
      ∀ fault, Fragment.ofExpression "add {n:integer} (big) red|green ^[bad ones] {{check}}".toList =
        .error fault ↔
        Node.parse "add {n:integer} (big) red|green ^[bad ones] {{check}}".toList = .error fault := by
  obtain ⟨n, parsed, -⟩ := exists_ok (p := fun _ => true)
    (x := Node.parse "add {n:integer} (big) red|green ^[bad ones] {{check}}".toList) (by decide +kernel)
  obtain ⟨wellFormed, fragments⟩ :=
    isWellFormed_and_fragments "add {n:integer} (big) red|green ^[bad ones] {{check}}".toList
  exact ⟨n, parsed, wellFormed n parsed, fragments⟩

end StepMatch
