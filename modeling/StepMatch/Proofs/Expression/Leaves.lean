import StepMatch.Expression.Specificity
import StepMatch.Proofs.Expression.Blocks
import StepMatch.Proofs.Expression.Tiling

/-!
# The leaves of an expression

Reading an expression loses nothing, writes nothing twice and moves nothing. From left to right, the leaves
of the tree are the characters of the text outside the slots and the slots between them, as the tokens
have them: a wildcard is the star that it was read from, and a slot holds its trimmed text. What a reading
holds at any time, around the open brackets and in them, are the leaves of the tokens read so far; each
step adds those of the tokens that it takes.
-/

namespace StepMatch

/-- What is read off an expression from left to right. -/
inductive Leaf where
  | char (c : Char)
  | argument (text : Text) (position : Nat)
  | assertion (text : Text) (position : Nat)
deriving DecidableEq, Repr

/-- The characters of a text. -/
def Leaf.ofText (t : Text) : List Leaf := t.map .char

/-- Whether the leaf is a slot. -/
def Leaf.isSlot : Leaf → Bool
  | .char _ => false
  | .argument .. | .assertion .. => true

namespace Node

mutual

/-- The leaves of a tree. -/
def leaves : Node → List Leaf
  | .sequence children => concatLeaves children
  | .literal t => Leaf.ofText t
  | .optional child => leaves child
  | .choice _ alternatives => concatLeaves alternatives
  | .negation _ child => leaves child
  | .wildcard => [.char '*']
  | .argument t position => [.argument t position]
  | .assertion t position => [.assertion t position]

/-- The leaves of trees one after the other. -/
def concatLeaves : List Node → List Leaf
  | [] => []
  | n :: ns => leaves n ++ concatLeaves ns

end

end Node

namespace Token

/-- The text of a slot that was opened just before the tokens, without the blanks at either end. -/
def slotText : List Token → Text
  | ⟨.text t, _, _⟩ :: _ => t.trim
  | _ => []

/-- The leaves that tokens write; `inside` says that a slot is open. Its text belongs to the slot. -/
def leaves (inside : Bool) : List Token → List Leaf
  | [] => []
  | token :: rest =>
    match token.symbol with
    | .text t => (if inside then [] else Leaf.ofText t) ++ leaves inside rest
    | .startArgument => .argument (slotText rest) token.start :: leaves true rest
    | .startAssertion => .assertion (slotText rest) token.start :: leaves true rest
    | .endArgument | .endAssertion => leaves false rest
    | _ => leaves inside rest

/-- The runs of text outside the slots; `inside` says that a slot is open. -/
def outerTexts (inside : Bool) : List Token → List Text
  | [] => []
  | token :: rest =>
    match token.symbol with
    | .text t => if inside then outerTexts inside rest else t :: outerTexts inside rest
    | .startArgument | .startAssertion => outerTexts true rest
    | .endArgument | .endAssertion => outerTexts false rest
    | _ => outerTexts inside rest

/-- Whether the token opens a slot. -/
def opensSlot (token : Token) : Bool :=
  token.symbol = .startArgument || token.symbol = .startAssertion

end Token

namespace Node

variable {n : Node} {ns ms : List Node} {t : Text}

theorem concatLeaves_append (ns ms : List Node) :
    concatLeaves (ns ++ ms) = concatLeaves ns ++ concatLeaves ms := by
  induction ns with
  | nil => rfl
  | cons n ns ih => rw [List.cons_append, concatLeaves, concatLeaves, ih, List.append_assoc]

theorem concatLeaves_singleton (n : Node) : concatLeaves [n] = n.leaves := by
  rw [concatLeaves, concatLeaves, List.append_nil]

theorem leaves_ofParts (ns : List Node) : (ofParts ns).leaves = concatLeaves ns := by
  rw [ofParts.eq_def]
  split
  · exact (concatLeaves_singleton _).symm
  · rw [leaves]

theorem concatLeaves_map_ofParts (nss : List (List Node)) :
    concatLeaves (nss.map ofParts) = nss.flatMap concatLeaves := by
  induction nss with
  | nil => rfl
  | cons ns nss ih => rw [List.map_cons, concatLeaves, leaves_ofParts, ih, List.flatMap_cons]

theorem concatLeaves_consLiteral (c : Char) (ns : List Node) :
    concatLeaves (consLiteral c ns) = .char c :: concatLeaves ns := by
  rw [consLiteral.eq_def]
  split <;> rfl

/-- Carving the stars out of a text keeps its characters. -/
theorem concatLeaves_carveFrom (fresh : Bool) (t : Text) :
    concatLeaves (carveFrom fresh t) = Leaf.ofText t := by
  induction t generalizing fresh with
  | nil => rfl
  | cons c t ih =>
    rw [carveFrom]
    split
    · rename_i star
      simp only [Bool.and_eq_true, beq_iff_eq] at star
      rw [star.1.1, concatLeaves, ih]
      rfl
    · rw [concatLeaves_consLiteral, ih]
      rfl

end Node

namespace Reading

open Node (concatLeaves concatLeaves_append concatLeaves_singleton)

variable {s s' : Reading} {b : Bracket} {outer : List Bracket} {token : Token} {t : Text}

/-- The leaves around the open brackets, and of the alternatives that are complete in them. -/
def waiting : List Bracket → List Leaf
  | [] => []
  | b :: outer =>
    waiting outer ++ (concatLeaves b.before.reverse ++ b.finished.reverse.flatMap concatLeaves)

/-- The leaves of all that a reading holds, from left to right. -/
def leaves (s : Reading) : List Leaf := waiting s.brackets ++ concatLeaves s.parts.reverse

theorem leaves_push (s : Reading) (n : Node) : (s.push n).leaves = s.leaves ++ n.leaves := by
  rw [leaves, leaves, push, List.reverse_cons, concatLeaves_append, concatLeaves_singleton,
    List.append_assoc]

theorem leaves_pushText (s : Reading) (t : Text) :
    (s.pushText t).leaves = s.leaves ++ Leaf.ofText t := by
  rw [leaves, leaves, pushText, List.reverse_append, List.reverse_reverse, concatLeaves_append,
    Node.carve, Node.concatLeaves_carveFrom, List.append_assoc]

theorem leaves_openBracket (s : Reading) (opener : Token) (delimiter : Delimiter) (negated : Bool) :
    (s.openBracket opener delimiter negated).leaves = s.leaves := by
  simp [leaves, openBracket, waiting, concatLeaves]

theorem leaves_nextAlternative (brackets : s.brackets = b :: outer) :
    (s.nextAlternative b outer).leaves = s.leaves := by
  simp [leaves, nextAlternative, brackets, waiting, concatLeaves]

/-- A bracket holds the leaves of its alternatives. -/
theorem leaves_of_node {last : List Node} {n : Node} (made : b.node last = .ok n) :
    n.leaves = b.finished.reverse.flatMap concatLeaves ++ concatLeaves last := by
  rw [Bracket.node.eq_def] at made
  split at made
  · rename_i none
    rw [none]
    split at made
    · cases made
    · split at made <;> cases made
      · exact Node.leaves_ofParts last
      · exact Node.leaves_ofParts last
  · dsimp only at made
    split at made
    · cases made
    · cases made
      rw [Node.leaves, Node.concatLeaves_map_ofParts, List.reverse_cons, List.flatMap_append,
        List.flatMap_singleton]

theorem leaves_closeBracket (e : s.closeBracket token = .ok s') : s'.leaves = s.leaves := by
  obtain ⟨b, outer, n, brackets, -, made, rfl⟩ := closeBracket_eq_ok_iff.1 e
  have own : s.leaves = leaves { s with parts := b.before, brackets := outer } ++ n.leaves := by
    simp only [leaves, brackets, waiting, leaves_of_node made, List.append_assoc]
  rw [own]
  unfold afterBracket
  split
  · rw [leaves_push, negate, Node.leaves]
  · split
    · rw [leaves, leaves, List.reverse_append, List.reverse_reverse, concatLeaves_append, Node.leaves,
        List.append_assoc]
    · exact leaves_push _ n

theorem leaves_chooseWord {bar : Token} (e : s.chooseWord bar t = .ok s') :
    s'.leaves = s.leaves ++ Leaf.ofText t := by
  obtain ⟨parts, brackets, asserted⟩ := s
  rw [chooseWord.eq_def] at e
  dsimp only at e
  split at e
  · cases e
  · rename_i word rest first
    rw [← append_of_firstWord? first]
    have choose (alternatives before : List Node) : (Reading.pushText
        ⟨.choice .bare (alternatives ++ [.literal word]) :: before, brackets, asserted⟩ rest).leaves =
        leaves ⟨alternatives.reverse ++ before, brackets, asserted⟩ ++ Leaf.ofText (word ++ rest) := by
      rw [leaves_pushText]
      simp [leaves, concatLeaves_append, concatLeaves, Node.leaves, Leaf.ofText]
    split at e
    · cases e
      rw [choose]
      simp [leaves, concatLeaves_append, concatLeaves, Node.leaves]
    · rename_i l before
      split at e
      · cases e
      · rename_i left last
        cases e
        rw [choose, ← append_of_lastWord? last]
        rfl
      · rename_i head left _ last
        cases e
        rw [choose, ← append_of_lastWord? last]
        simp [leaves, concatLeaves_append, concatLeaves, Node.leaves, Leaf.ofText]
    · cases e

theorem leaves_negateWord {caret : Token} (e : s.negateWord caret t = .ok s') :
    s'.leaves = s.leaves ++ Leaf.ofText t := by
  rw [negateWord.eq_def] at e
  split at e
  · cases e
  · rename_i word rest first
    cases e
    rw [leaves_pushText, leaves_push, ← append_of_firstWord? first, Node.leaves, Node.leaves,
      List.append_assoc, Leaf.ofText, Leaf.ofText, Leaf.ofText, List.map_append]

/-- A slot adds the leaf that its opening brace stands for, and its text adds nothing else. -/
theorem leaves_pushSlot {opener : Token}
    (opens : opener.symbol = .startArgument ∨ opener.symbol = .startAssertion)
    (start stop start' stop' : Nat) (rest : List Token) (e : s.pushSlot opener t = .ok s') :
    s'.leaves ++ Token.leaves false rest = s.leaves ++ Token.leaves false
      (opener :: ⟨.text t, start, stop⟩ :: ⟨(slotShape opener).1, start', stop'⟩ :: rest) := by
  obtain ⟨symbol, first, last⟩ := opener
  have added (n : Node) (asserted : Bool) :
      leaves { s.push n with asserted := asserted } = s.leaves ++ n.leaves := leaves_push s n
  rw [pushSlot.eq_def] at e
  obtain rfl | rfl : symbol = .startArgument ∨ symbol = .startAssertion := opens
  · simp only [reduceCtorEq, if_false] at e
    split at e
    · cases e
    · split at e <;> cases e
      rw [leaves_push, Node.leaves, List.append_assoc]
      rfl
  · simp only [if_true] at e
    split at e
    · cases e
    · split at e <;> cases e
      rw [added, Node.leaves, List.append_assoc]
      rfl

/-- The parts that a reading ends with have the leaves read before, and those that the tokens write. -/
theorem concatLeaves_of_run {tokens : List Token} {parts : List Node} (e : s.run tokens = .ok parts) :
    concatLeaves parts = s.leaves ++ Token.leaves false tokens := by
  fun_induction Reading.run s tokens with
  | case1 s outside =>
    cases e
    rw [leaves, outside, waiting, Token.leaves, List.nil_append, List.append_nil]
  | case3 s token rest t symbol ih =>
    rw [ih e, leaves_pushText, Token.leaves, symbol, List.append_assoc]
    rfl
  | case4 s token rest symbol ih | case5 s token rest symbol ih =>
    rw [ih e, leaves_openBracket, Token.leaves, symbol]
  | case6 s token rest symbol ih | case7 s token rest symbol ih =>
    obtain ⟨s', closed, e⟩ := ok_of_bind e
    rw [ih s' e, leaves_closeBracket closed, Token.leaves, symbol]
  | case8 s token symbol b outer rest brackets ih =>
    rw [ih e, leaves_nextAlternative brackets, Token.leaves, symbol]
  | case9 s token symbol t start stop rest outside ih =>
    obtain ⟨s', chosen, e⟩ := ok_of_bind e
    rw [ih s' e, leaves_chooseWord chosen, Token.leaves, symbol, List.append_assoc]
    rfl
  | case11 s token symbol t start stop rest ih =>
    obtain ⟨s', negated, e⟩ := ok_of_bind e
    rw [ih s' e, leaves_negateWord negated, Token.leaves, symbol, List.append_assoc]
    rfl
  | case12 s token symbol start stop rest ih =>
    rw [ih e, leaves_openBracket, Token.leaves, symbol]
    rfl
  | case14 s token symbol outside t start stop start' stop' rest ih
  | case18 s token symbol outside t start stop start' stop' rest ih =>
    obtain ⟨s', pushed, e⟩ := ok_of_bind e
    rw [ih s' e, leaves_pushSlot (by simp [symbol]) start stop start' stop' rest pushed]
  | _ => cases e

end Reading

namespace Specificity

open Node (concatLeaves)

mutual

/-- The counts of a tree are those of its leaves. -/
theorem count_leaves : ∀ n : Node, n.leaves.countP Leaf.isSlot = (ofNode n).slots ∧
    n.leaves.length = (ofNode n).literalChars + (ofNode n).wildcards + (ofNode n).slots
  | .sequence children => count_concatLeaves children
  | .choice _ alternatives => count_concatLeaves alternatives
  | .optional child => count_leaves child
  | .negation _ child => count_leaves child
  | .literal t => by simp [Node.leaves, ofNode, Leaf.ofText, Leaf.isSlot, Function.comp_def]
  | .wildcard | .argument .. | .assertion .. => ⟨rfl, rfl⟩

theorem count_concatLeaves : ∀ ns : List Node,
    (concatLeaves ns).countP Leaf.isSlot = (ofNodes ns).slots ∧
      (concatLeaves ns).length =
        (ofNodes ns).literalChars + (ofNodes ns).wildcards + (ofNodes ns).slots
  | [] => ⟨rfl, rfl⟩
  | n :: ns => by
    obtain ⟨slots, length⟩ := count_leaves n
    obtain ⟨slots', length'⟩ := count_concatLeaves ns
    simp only [concatLeaves, ofNodes, add, List.countP_append, List.length_append]
    omega

end

end Specificity

/-- The leaves of tokens are the characters outside the slots, and one for each brace that opens a slot. -/
theorem Token.count_leaves (inside : Bool) (tokens : List Token) :
    (leaves inside tokens).countP Leaf.isSlot = tokens.countP opensSlot ∧
      (leaves inside tokens).length =
        (outerTexts inside tokens).flatten.length + tokens.countP opensSlot := by
  induction tokens generalizing inside with
  | nil => exact ⟨rfl, rfl⟩
  | cons token rest ih =>
    obtain ⟨symbol, start, stop⟩ := token
    cases symbol with
    | text t =>
      rw [List.countP_cons_of_neg (by simp [opensSlot])]
      cases inside with
      | true => exact ih true
      | false =>
        obtain ⟨slots, length⟩ := ih false
        have none : (Leaf.ofText t).countP Leaf.isSlot = 0 := by simp [Leaf.ofText, Leaf.isSlot]
        have own : (Leaf.ofText t).length = t.length := List.length_map _
        simp only [leaves, outerTexts, Bool.false_eq_true, if_false, List.countP_append,
          List.length_append, List.flatten_cons]
        omega
    | startArgument | startAssertion =>
      obtain ⟨slots, length⟩ := ih true
      rw [List.countP_cons_of_pos (by simp [opensSlot]), leaves, outerTexts, List.countP_cons_of_pos rfl,
        List.length_cons]
      dsimp only
      omega
    | endArgument | endAssertion =>
      rw [List.countP_cons_of_neg (by simp [opensSlot])]
      exact ih false
    | _ =>
      rw [List.countP_cons_of_neg (by simp [opensSlot])]
      exact ih inside

/-- The tree has what the tokens write, character by character and slot by slot, in their order, and the
counts are right. -/
structure Node.Keeps (tokens : List Token) (counts : Specificity) (n : Node) : Prop where
  /-- So the texts of the leaves between two slots join to those of the tokens between them. -/
  leaves : n.leaves = Token.leaves false tokens
  /-- The characters outside the slots are counted as literal ones or as wildcards. -/
  characters : counts.literalChars + counts.wildcards = (Token.outerTexts false tokens).flatten.length
  slots : counts.slots = tokens.countP Token.opensSlot

/-- The leaves of a tree are those of the tokens that it is read from. -/
theorem Node.leaves_of_parse {expression : Text} {n : Node} (h : parse expression = .ok n) :
    ∃ tokens, Token.scan expression = .ok tokens ∧ n.leaves = Token.leaves false tokens := by
  obtain ⟨tokens, scanned, h⟩ := ok_of_bind h
  obtain ⟨parts, run, h⟩ := ok_of_bind h
  refine ⟨tokens, scanned, ?_⟩
  split at h
  · cases h
  · cases h
    rw [leaves_ofParts]
    exact Reading.concatLeaves_of_run run

/-- An expression that has a tree keeps all of its text and its slots there. -/
theorem Node.keeps_of_parse {expression : Text} {n : Node} (h : parse expression = .ok n) :
    ∃ tokens counts, Token.scan expression = .ok tokens ∧
      Specificity.ofExpression expression = .ok counts ∧ n.Keeps tokens counts := by
  have counted : Specificity.ofExpression expression = .ok (.ofNode n) := by
    rw [Specificity.ofExpression, h]
    rfl
  obtain ⟨tokens, scanned, kept⟩ := leaves_of_parse h
  obtain ⟨slots, length⟩ := Specificity.count_leaves n
  obtain ⟨slots', length'⟩ := Token.count_leaves false tokens
  rw [kept] at slots length
  exact ⟨tokens, _, scanned, counted, kept, by omega, by omega⟩

/-- With a bare choice that cuts a text, a wildcard, a negated word, brackets and slots of either kind. -/
theorem Node.keeps_of_order : ∃ n tokens counts,
    parse "add red|green * ^old [big (box)] of { n : integer } {{check}}".toList = .ok n ∧
      Token.scan "add red|green * ^old [big (box)] of { n : integer } {{check}}".toList = .ok tokens ∧
      n.Keeps tokens counts := by
  obtain ⟨n, parsed, -⟩ := exists_ok (p := fun _ => true)
    (x := parse "add red|green * ^old [big (box)] of { n : integer } {{check}}".toList)
    (by decide +kernel)
  obtain ⟨tokens, counts, scanned, -, keeps⟩ := keeps_of_parse parsed
  exact ⟨n, tokens, counts, parsed, scanned, keeps⟩

end StepMatch
