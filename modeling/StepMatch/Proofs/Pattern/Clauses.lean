import StepMatch.Proofs.Expression.Clauses
import StepMatch.Proofs.Pattern.Spacing

/-!
# The language of clauses

The row of an expression in clauses goes wrong nowhere: whatever optional phrases are left out, each
word that stays brings the blanks in front of it. Optional phrases that the expression opens with fold
into one group, whose words bring the blanks after them.
-/

namespace StepMatch.Clause

open Pattern
open Regex (spaces slack)

/-- The words that a clause may stand for. -/
def selections : Clause → List (List PlainWord)
  | .word w => [[w]]
  | .optional p => [[], p.words]
  | .choice _ first second more => (first :: second :: more).map Wording.words
  | .bare first second more => (first :: second :: more).map fun w => [w]

def isOptional : Clause → Bool
  | .optional _ => true
  | .word _ | .choice .. | .bare .. => false

def isWord : Clause → Bool
  | .word _ => true
  | .optional _ | .choice .. | .bare .. => false

/-- The texts of words with blanks in front of each. -/
def follow (ws : List PlainWord) : TextLanguage := (ws.map fun w => spaces * {w.text}).prod

/-- The texts of words with blanks between neighbours. -/
def spread : List PlainWord → TextLanguage
  | [] => 1
  | w :: ws => {w.text} * follow ws

/-- The texts of a clause by itself. -/
def language (c : Clause) : TextLanguage := {t | ∃ ws ∈ c.selections, t ∈ spread ws}

theorem mem_language {c : Clause} {t : Text} : t ∈ c.language ↔ ∃ ws ∈ c.selections, t ∈ spread ws :=
  Iff.rfl

/-- The texts of clauses after something else. An optional phrase that is left out at the end leaves its
blanks behind. -/
def continued : List Clause → TextLanguage
  | [] => 1
  | .optional p :: rest => ((if rest.isEmpty then slack else 1) + follow p.words) * continued rest
  | c :: rest => spaces * c.language * continued rest

variable {c : Clause} {cs : List Clause} {p : Wording} {w : PlainWord} {ws vs : List PlainWord}
  {L : TextLanguage}

/-! ## Blanks and words -/

theorem slack_mul_spaces : slack * spaces = spaces := by
  ext t
  rw [Language.mem_mul]
  constructor
  · rintro ⟨u, hu, v, ⟨ne, hv⟩, rfl⟩
    exact ⟨List.append_ne_nil_of_right_ne_nil u ne, List.forall_mem_append.2 ⟨hu, hv⟩⟩
  · intro ht
    exact ⟨[], List.forall_mem_nil _, t, ht, rfl⟩

theorem slack_mul_slack : slack * slack = slack := by
  ext t
  rw [Language.mem_mul]
  constructor
  · rintro ⟨u, hu, v, hv, rfl⟩
    exact List.forall_mem_append.2 ⟨hu, hv⟩
  · intro ht
    exact ⟨[], List.forall_mem_nil _, t, ht, rfl⟩

theorem follow_append (ws vs : List PlainWord) : follow (ws ++ vs) = follow ws * follow vs := by
  rw [follow, List.map_append, List.prod_append]
  rfl

theorem follow_eq (ne : ws ≠ []) : follow ws = spaces * spread ws := by
  obtain ⟨w, ws, rfl⟩ := List.exists_cons_of_ne_nil ne
  rw [follow, List.map_cons, List.prod_cons, mul_assoc]
  rfl

theorem spread_append (ne : ws ≠ []) (vs : List PlainWord) :
    spread (ws ++ vs) = spread ws * follow vs := by
  obtain ⟨w, ws, rfl⟩ := List.exists_cons_of_ne_nil ne
  rw [List.cons_append, spread, spread, follow_append, mul_assoc]

theorem slack_mul_follow (ne : ws ≠ []) : slack * follow ws = follow ws := by
  rw [follow_eq ne, ← mul_assoc, slack_mul_spaces]

/-- What goes on after blanks brings blanks of its own. -/
theorem slack_mul_continued (ne : cs ≠ []) : slack * continued cs = continued cs := by
  induction cs with
  | nil => exact absurd rfl ne
  | cons c rest ih =>
    cases c with
    | optional p =>
      rw [continued, ← mul_assoc, mul_add, slack_mul_follow p.words_ne_nil]
      cases rest with
      | nil => rw [List.isEmpty_nil, if_pos rfl, slack_mul_slack]
      | cons d rest =>
        rw [if_neg (by simp), mul_one, add_mul, add_mul, one_mul, ih (List.cons_ne_nil d rest)]
    | word | choice | bare =>
      rw [continued, ← mul_assoc, ← mul_assoc, slack_mul_spaces]
      simp

/-- Blanks in front of an optional phrase that may be none are either its own or those of what comes
after it. -/
theorem slack_mul_optional (p : Wording) (rest : List Clause) :
    slack * (1 + follow p.words) * continued rest = continued (.optional p :: rest) := by
  rw [mul_add, mul_one, slack_mul_follow p.words_ne_nil, continued]
  cases rest with
  | nil => rw [List.isEmpty_nil, if_pos rfl]
  | cons d rest =>
    rw [if_neg (by simp), add_mul, add_mul, one_mul, slack_mul_continued (List.cons_ne_nil d rest)]

/-! ## The rows of literal text -/

/-- The group of words, or of blanks alone if there are no words. -/
def textGroup (lead : Bool) (ws : List PlainWord) (tail : Space) : Group :=
  match ws with
  | [] => .gap tail
  | w :: ws => .text lead w.toWord (ws.map PlainWord.toWord) tail

/-- The texts of words up to the blanks at the end. -/
def stem (lead : Bool) (ws : List PlainWord) : TextLanguage := if lead then follow ws else spread ws

theorem stem_append (lead : Bool) (ne : ws ≠ []) (vs : List PlainWord) :
    stem lead (ws ++ vs) = stem lead ws * follow vs := by
  cases lead with
  | false => exact spread_append ne vs
  | true => exact follow_append ws vs

theorem language_textGroup (lead : Bool) (ws : List PlainWord) (tail : Space) :
    (textGroup lead ws tail).language = stem lead ws * tail.language := by
  obtain _ | ⟨w, ws⟩ := ws
  · cases lead <;> rw [textGroup, Group.language] <;> exact (one_mul _).symm
  · have words : wordsLanguage w.toWord (ws.map PlainWord.toWord) = spread (w :: ws) := by
      rw [wordsLanguage, List.map_map]
      rfl
    rw [textGroup, Group.language, words]
    cases lead with
    | false => rw [Space.ofLead, if_neg (by simp), Space.language, one_mul]; rfl
    | true =>
      rw [Space.ofLead, if_pos rfl, Space.language, ← follow_eq (List.cons_ne_nil w ws)]
      rfl

theorem relax?_textGroup (lead : Bool) (ws : List PlainWord) :
    (textGroup lead ws .blanks).relax? = some (textGroup lead ws .slack) := by
  cases ws <;> rfl

/-- The group of a text that has such words. -/
theorem literalGroup_eq {t : Text} (ne : ws ≠ []) (words : t.words = ws.map fun w => w.text) :
    literalGroup t = textGroup t.startsBlank ws (.ofLead t.endsBlank) := by
  have inj : Function.Injective Word.text := by
    rintro ⟨t, _, _⟩ ⟨u, _, _⟩ e
    cases e
    rfl
  have own : wordsOf t = ws.map PlainWord.toWord := by
    refine List.map_injective_iff.2 inj ?_
    rw [map_wordsOf, words, List.map_map]
    rfl
  obtain ⟨w, ws, rfl⟩ := List.exists_cons_of_ne_nil ne
  exact literalGroup_of_wordsOf own

theorem startsBlank_text_append (w : PlainWord) (t : Text) :
    Text.startsBlank (w.text ++ t) = false := by
  obtain ⟨c, u, e⟩ := List.exists_cons_of_ne_nil w.ne
  have ink := w.ink c (e ▸ List.mem_cons_self)
  rw [e]
  simpa [Text.startsBlank, isInk] using ink

theorem startsBlank_pending_append (lead : Bool) (ws : List PlainWord) (w : PlainWord) (t : Text) :
    Text.startsBlank (pending lead ws ++ (w.text ++ t)) = lead := by
  cases lead with
  | true => rfl
  | false =>
    obtain _ | ⟨v, ws⟩ := ws
    · exact startsBlank_text_append w t
    · have e : pending false (v :: ws) ++ (w.text ++ t) =
          v.text ++ (' ' :: (pending false ws ++ (w.text ++ t))) := by simp [pending]
      rw [e]
      exact startsBlank_text_append v _

/-- The group of words with a space after each. -/
theorem literalGroup_pending {lead : Bool} (some_ : lead = true ∨ ws ≠ []) :
    literalGroup (pending lead ws) = textGroup lead ws .blanks := by
  obtain rfl | ⟨ws, w, rfl⟩ := List.eq_nil_or_concat' ws
  · obtain rfl := some_.resolve_right (by simp)
    rfl
  · have starts := startsBlank_pending_append lead ws w [' ']
    have ends : (pending lead (ws ++ [w])).endsBlank = true := by
      rw [pending_concat, ← List.append_assoc, Text.endsBlank, List.getLast?_concat]
      rfl
    rw [literalGroup_eq (by simp) (words_pending lead _), ends, pending_concat, starts]
    rfl

/-- The group of words with spaces between neighbours. -/
theorem literalGroup_pending_append (lead : Bool) (ws : List PlainWord) (w : PlainWord) :
    literalGroup (pending lead ws ++ w.text) = textGroup lead (ws ++ [w]) .none := by
  have starts := startsBlank_pending_append lead ws w []
  have words : Text.words (pending lead ws ++ w.text) = (ws ++ [w]).map fun w => w.text := by
    rw [words_pending_append, w.words_text, List.map_append]
    rfl
  have ends : Text.endsBlank (pending lead ws ++ w.text) = false := by
    obtain ⟨u, c, e⟩ := (List.eq_nil_or_concat' w.text).resolve_left w.ne
    have ink := w.ink c (by simp [e])
    rw [e, ← List.append_assoc, Text.endsBlank, List.getLast?_concat]
    simpa [isInk] using ink
  rw [List.append_nil] at starts
  rw [literalGroup_eq (by simp) words, ends, starts]
  rfl

/-! ## The rows of clauses in brackets -/

theorem joinWith_eq_pending (ws : List PlainWord) (w : PlainWord) :
    Text.joinWith [' '] ((ws ++ [w]).map fun w => w.text) = pending false ws ++ w.text := by
  induction ws with
  | nil => simp [pending, Text.joinWith]
  | cons v ws ih =>
    have longer : pending false (v :: ws) = v.text ++ ' ' :: pending false ws := by simp [pending]
    rw [longer, List.append_assoc, List.cons_append, List.cons_append, ← ih]
    cases ws <;> simp [Text.joinWith]

theorem literalGroup_text (p : Wording) : literalGroup p.text = textGroup false p.words .none := by
  obtain ⟨ws, w, e⟩ := (List.eq_nil_or_concat' p.words).resolve_left p.words_ne_nil
  rw [Wording.text, e, joinWith_eq_pending, literalGroup_pending_append]

/-- The texts of alternatives. -/
theorem mem_rowLanguage_choice (d : Delimiter) (first : Wording) (more : List Wording) (t : Text) :
    t ∈ rowLanguage (rowOf (.choice d ((first :: more).map fun p => .literal p.text))) ↔
      ∃ p ∈ first :: more, t ∈ spread p.words := by
  have own (p : Wording) : rowLanguage (rowOf (.literal p.text)) = spread p.words := by
    rw [rowOf, rowLanguage, rowLanguage, mul_one, Part.language, literalGroup_text,
      language_textGroup, Space.language, mul_one]
    rfl
  have others (ps : List Wording) : t ∈ othersLanguage (rowsOf (ps.map fun p => .literal p.text)) ↔
      ∃ p ∈ ps, t ∈ spread p.words := by
    induction ps with
    | nil => simp [rowsOf, othersLanguage, Language.notMem_zero]
    | cons p ps ih =>
      rw [List.map_cons, rowsOf, othersLanguage, own, Language.mem_add, ih]
      simp
  rw [← others, List.map_cons, rowOf, rowsOf]
  dsimp only
  rw [rowLanguage, rowLanguage, mul_one, Part.language, Group.language, othersLanguage]

/-- The row of a clause that is chosen, for what the clause stands for. -/
theorem exists_rowOf_choice (chosen : c.isOptional = false) (several : c.isWord = false) :
    ∃ first others, rowOf c.node = [.group (.choice first others)] ∧
      (Group.choice first others).language = c.language ∧ c.node.toExpression ≠ ['*'] ∧
      optionalOf? c.node (rowOf c.node) = none := by
  have row (d : Delimiter) (p q : Wording) (more : List Wording)
      (own : c.node = .choice d ((p :: q :: more).map fun p => .literal p.text))
      (selected : c.selections = (p :: q :: more).map Wording.words) : ∃ first others,
      rowOf c.node = [.group (.choice first others)] ∧
        (Group.choice first others).language = c.language ∧ c.node.toExpression ≠ ['*'] ∧
        optionalOf? c.node (rowOf c.node) = none := by
    have e : rowOf c.node = [.group (.choice (rowOf (.literal p.text))
        (rowsOf ((q :: more).map fun p => .literal p.text)))] := by
      rw [own]
      simp only [List.map_cons, rowOf, rowsOf]
    refine ⟨_, _, e, ?_, ?_, ?_⟩
    · ext t
      have mem := mem_rowLanguage_choice d p (q :: more) t
      rw [← own, e, rowLanguage, rowLanguage, mul_one, Part.language] at mem
      rw [mem, mem_language, selected]
      simp
    · rw [own]
      exact Node.toExpression_choice_ne_star d _ _ _
    · rw [own]
      rfl
  cases c with
  | word | optional => cases chosen <;> cases several
  | choice round first second more =>
    exact row _ first second more rfl rfl
  | bare first second more =>
    let alone (w : PlainWord) : Wording := ⟨w, []⟩
    have text (w : PlainWord) : (alone w).text = w.text := by
      simp [alone, Wording.text, Wording.words, Text.joinWith]
    refine row .bare (alone first) (alone second) (more.map alone) ?_ ?_
    · simp [node, text]
    · simp [selections, alone, Wording.words]

/-! ## Merging -/

/-- Literal text with words goes after the row `pre`, with blanks in front if `lead'`, where it would
merge with the row that there is. -/
def Settles (row : Option (List Part)) (lead : Bool) (pre : List Part) (lead' : Bool) : Prop :=
  ∀ ⦃t : Text⦄ ⦃ws : List PlainWord⦄ ⦃tail : Space⦄, ws ≠ [] → ['*'] ∉ t.words →
    literalGroup t = textGroup lead ws tail →
      mergeNode row (.literal t) [.group (literalGroup t)] = pre ++ [.group (textGroup lead' ws tail)]

theorem settles_none (lead : Bool) : Settles none lead [] lead := by
  intro t ws tail _ _ e
  rw [mergeNode, e]
  rfl

theorem settles_some {ps : List Part} (several : loneOptional? ps = none) (lead : Bool) :
    Settles (some ps) lead ps lead := by
  intro t ws tail _ star e
  rw [mergeNode_literal (Text.ne_star star), absorbRow_eq_append (.inl several), e]

/-- A group of optional phrases takes in the blanks in front of the words. -/
theorem settles_optional (g : Group) : Settles (some [.optional g]) true [.absorbed g] false := by
  intro t ws tail ne star e
  obtain ⟨w, ws, rfl⟩ := List.exists_cons_of_ne_nil ne
  rw [mergeNode_literal (Text.ne_star star), e]
  rfl

/-! ## Clauses after a row -/

/-- After a row that is more than one optional group, clauses add their texts. -/
def AddsOn (cs : List Clause) : Prop :=
  ∀ ps : List Part, loneOptional? ps = none →
    rowLanguage (rowOfAll (some ps) (parts true [] cs)) = rowLanguage ps * continued cs

theorem rowOf_optional (p : Wording) :
    rowOf (node (.optional p)) = [.optional (textGroup false p.words .none)] := by
  rw [node, rowOf, rowOf, atomGroup, literalGroup_text]

theorem language_wording (p : Wording) : (textGroup false p.words .none).language = spread p.words := by
  rw [language_textGroup, Space.language, mul_one]
  rfl

/-- A clause in brackets after a row that ends with blanks. An optional phrase relaxes them. -/
theorem rowLanguage_clause {pre : List Part} {g g' : Group} {M : TextLanguage}
    (bracketed : c.isWord = false) (relaxed : g.relax? = some g')
    (ungapped : gapped? (pre ++ [.group g]) = none) (closes : g.language = M * spaces)
    (closes' : g'.language = M * slack) (goesOn : AddsOn cs) :
    rowLanguage (rowOfAll (some (pre ++ [.group g])) (c.node :: parts true [] cs)) =
      rowLanguage pre * M * continued (c :: cs) := by
  have ends (h : Group) : rowLanguage (pre ++ [.group h]) = rowLanguage pre * h.language := by
    rw [rowLanguage_append, rowLanguage, rowLanguage, mul_one, Part.language]
  rw [rowOfAll]
  cases optional : c.isOptional with
  | true =>
    obtain _ | p | _ | _ := c <;> cases optional
    have row : relaxRow? (pre ++ [.group g]) = some (pre ++ [.group g']) :=
      relaxRow?_eq_some_iff.2 ⟨pre, g, g', relaxed, rfl, rfl⟩
    have own : optionalOf? (node (.optional p)) [.optional (textGroup false p.words .none)] =
        some (textGroup false p.words .none) := rfl
    rw [rowOf_optional, mergeNode, own, gapped_of_relax ungapped row,
      goesOn _ (loneOptional?_append (by simp) (by simp)), rowLanguage_append, ends, closes',
      rowLanguage_spaced, language_wording, ← follow_eq p.words_ne_nil, ← slack_mul_optional]
    simp only [mul_assoc]
  | false =>
    obtain ⟨first, others, row, language, tame, needed⟩ := exists_rowOf_choice optional bracketed
    have added : continued (c :: cs) = spaces * c.language * continued cs := by
      cases c <;> first | rfl | cases optional
    rw [mergeNode_eq needed tame, row, absorbRow_eq_append (.inr rfl),
      goesOn _ (loneOptional?_append (by simp) (by simp)), rowLanguage_append, ends, closes,
      rowLanguage, rowLanguage, mul_one, Part.language, language, added]
    simp only [mul_assoc]

theorem language_word (w : PlainWord) : (word w).language = {w.text} := by
  ext t
  rw [mem_language]
  simp [selections, spread, follow]

theorem follow_singleton (w : PlainWord) : follow [w] = spaces * (word w).language := by
  rw [language_word, follow, List.map_singleton, List.prod_singleton]

theorem rowOfAll_literal (row : Option (List Part)) (t : Text) (ns : List Node) :
    rowOfAll row (.literal t :: ns) =
      rowOfAll (some (mergeNode row (.literal t) [.group (literalGroup t)])) ns := by
  rw [rowOfAll, rowOf]

/-- The last clause is a word that goes on a run of words. -/
theorem rowLanguage_last {row : Option (List Part)} {pre : List Part} {lead lead' : Bool}
    (settles : Settles row lead pre lead') (ws : List PlainWord) (w : PlainWord) :
    rowLanguage (rowOfAll row (parts lead ws [.word w])) =
      rowLanguage pre * stem lead' (ws ++ [w]) := by
  have merged := settles (by simp) (star_not_mem_words_pending_append lead ws w)
    (literalGroup_pending_append lead ws w)
  rw [parts, List.isEmpty_nil, if_pos rfl, rowOfAll_literal, merged, rowOfAll, Option.getD_some,
    rowLanguage_append, rowLanguage, rowLanguage, mul_one, Part.language, language_textGroup,
    Space.language, mul_one]

/-- Clauses after a run of words, and clauses after a row. -/
theorem rowLanguage_parts (cs : List Clause) : AddsOn cs ∧ (cs ≠ [] →
    ∀ {row : Option (List Part)} {pre : List Part} {lead lead' : Bool} {ws : List PlainWord},
      Settles row lead pre lead' → ws ≠ [] → rowLanguage (rowOfAll row (parts lead ws cs)) =
        rowLanguage pre * stem lead' ws * continued cs) := by
  induction cs with
  | nil =>
    refine ⟨fun ps _ => ?_, fun ne => absurd rfl ne⟩
    rw [parts, rowOfAll, continued, mul_one]
    rfl
  | cons c rest ih =>
    obtain ⟨addsOn, words⟩ := ih
    cases bracketed : c.isWord with
    | true =>
      obtain w | _ | _ | _ := c <;> cases bracketed
      have step (row : Option (List Part)) (pre : List Part) (lead lead' : Bool)
          (ws : List PlainWord) (settles : Settles row lead pre lead') :
          rowLanguage (rowOfAll row (parts lead ws (.word w :: rest))) =
            rowLanguage pre * stem lead' (ws ++ [w]) * continued rest := by
        by_cases none : rest = []
        · rw [none, rowLanguage_last settles, continued, mul_one]
        · rw [parts, if_neg (by simpa using none)]
          exact words none settles (by simp)
      have added : continued (.word w :: rest) = follow [w] * continued rest := by
        rw [continued, follow_singleton]
        simp
      refine ⟨fun ps several => ?_, fun _ row pre lead lead' ws settles ne => ?_⟩
      · rw [step _ ps true true [] (settles_some several true), added, ← mul_assoc]
        rfl
      · rw [step _ _ _ _ ws settles, stem_append _ ne, added]
        simp only [mul_assoc]
    | false =>
      have apart : ∀ w, c ≠ .word w := by
        rintro w rfl
        cases bracketed
      refine ⟨fun ps several => ?_, fun _ row pre lead lead' ws settles ne => ?_⟩
      · have gap : mergeNode (some ps) (.literal [' ']) [.group (literalGroup [' '])] =
            ps ++ [.group (.gap .blanks)] := by
          rw [mergeNode_literal (by decide), absorbRow_eq_append (.inl several)]
          rfl
        have ungapped : gapped? (ps ++ [.group (.gap .blanks)]) = none := by
          rw [Option.eq_none_iff_forall_ne_some]
          intro g gapped
          have lone : ps = [.optional g] := List.append_inj_left' (gapped?_eq_some_iff.1 gapped) rfl
          rw [loneOptional?_eq_some_iff.2 lone] at several
          cases several
        have space : Node.ofText (pending true []) = [.literal [' ']] := rfl
        rw [parts_cons apart, space, List.singleton_append, rowOfAll_literal, gap,
          rowLanguage_clause bracketed rfl ungapped (M := 1) (one_mul _).symm (one_mul _).symm addsOn,
          mul_one]
      · have literal : Node.ofText (pending lead ws) = [.literal (pending lead ws)] := by
          obtain ⟨ws, w, rfl⟩ := (List.eq_nil_or_concat' ws).resolve_left ne
          rw [Node.ofText, if_neg (by simp [pending_concat])]
        have merged := settles ne (star_not_mem_words_pending lead ws)
          (literalGroup_pending (.inr ne))
        have ungapped : gapped? (pre ++ [.group (textGroup lead' ws .blanks)]) = none := by
          rw [Option.eq_none_iff_forall_ne_some]
          intro g gapped
          have split : pre ++ [.group (textGroup lead' ws .blanks)] =
              [.optional g] ++ [.group (.gap .blanks)] := gapped?_eq_some_iff.1 gapped
          have last := List.append_inj_right' split rfl
          obtain ⟨w, ws, rfl⟩ := List.exists_cons_of_ne_nil ne
          cases last
        rw [parts_cons apart, literal, List.singleton_append, rowOfAll_literal, merged,
          rowLanguage_clause bracketed (relax?_textGroup lead' ws) ungapped
            (language_textGroup lead' ws .blanks) (language_textGroup lead' ws .slack) addsOn]

/-- A word goes on a run of words, and clauses after it. -/
theorem rowLanguage_word {row : Option (List Part)} {pre : List Part} {lead lead' : Bool}
    (settles : Settles row lead pre lead') (w : PlainWord) (cs : List Clause) :
    rowLanguage (rowOfAll row (parts lead [] (.word w :: cs))) =
      rowLanguage pre * stem lead' [w] * continued cs := by
  by_cases none : cs = []
  · rw [none, rowLanguage_last settles, continued, mul_one, List.nil_append]
  · rw [parts, if_neg (by simpa using none)]
    exact (rowLanguage_parts cs).2 none settles (by simp)

/-- The texts of clauses after optional phrases that open the expression. The phrases that stay have
the texts `L`. -/
def led : TextLanguage → List Clause → TextLanguage
  | L, [] => 1 + L
  | L, .optional p :: rest => led (L * (1 + follow p.words) + spread p.words) rest
  | L, c :: rest => (1 + L * spaces) * c.language * continued rest

/-- Optional phrases that open the expression fold into one group, and this takes in the blanks in front
of the word after them. -/
theorem rowLanguage_led (g : Group)
    (opens : ∀ c ∈ (cs.dropWhile isOptional).head?, c.isWord = true) :
    rowLanguage (rowOfAll (some [.optional g]) (parts true [] cs)) = led g.language cs := by
  induction cs generalizing g with
  | nil =>
    rw [parts, rowOfAll, Option.getD_some, rowLanguage, rowLanguage, mul_one, Part.language, led]
  | cons c rest ih =>
    cases c with
    | word w =>
      rw [rowLanguage_word (settles_optional g), rowLanguage, rowLanguage, mul_one, Part.language, led,
        language_word, stem, if_neg (by simp), spread]
      · simp [follow]
      · simp
    | optional p =>
      have gap : mergeNode (some [.optional g]) (.literal [' ']) [.group (literalGroup [' '])] =
          [.optional g, .group (.gap .blanks)] := by
        rw [mergeNode_literal (by decide), absorbRow_eq_append (.inr rfl)]
        rfl
      have folded : mergeNode (some [.optional g, .group (.gap .blanks)]) (node (.optional p))
          (rowOf (node (.optional p))) =
            [.optional (.folded g (textGroup false p.words .none))] := by
        rw [rowOf_optional]
        rfl
      have space : Node.ofText (pending true []) = [.literal [' ']] := rfl
      rw [parts_cons (by simp), space, List.singleton_append, rowOfAll_literal, gap, rowOfAll, folded,
        ih _ opens, Group.language, language_wording, ← follow_eq p.words_ne_nil, led]
    | choice | bare => cases opens _ rfl

/-- The texts of an expression in clauses. -/
def whole : List Clause → TextLanguage
  | [] => 1
  | .optional p :: rest => led (spread p.words) rest
  | c :: rest => c.language * continued rest

/-- If optional phrases open the list, there is a word after them or nothing at all. -/
def Opens (cs : List Clause) : Prop :=
  cs.head?.any isOptional = true → ∀ c ∈ (cs.dropWhile isOptional).head?, c.isWord = true

theorem rowLanguage_chosen (chosen : c.isOptional = false) (bracketed : c.isWord = false) :
    rowLanguage (rowOfAll none (parts false [] (c :: cs))) = c.language * continued cs := by
  obtain ⟨first, others, row, language, -, -⟩ := exists_rowOf_choice chosen bracketed
  have apart : ∀ w, c ≠ .word w := by
    rintro w rfl
    cases bracketed
  have space : Node.ofText (pending false []) = [] := rfl
  rw [parts_cons apart, space, List.nil_append, rowOfAll, mergeNode, row,
    (rowLanguage_parts cs).1 _ rfl, rowLanguage, rowLanguage, mul_one, Part.language, language]

theorem rowLanguage_whole (ne : cs ≠ []) (opens : Opens cs) :
    rowLanguage (rowOfAll none (parts false [] cs)) = whole cs := by
  obtain ⟨c, rest, rfl⟩ := List.exists_cons_of_ne_nil ne
  cases c with
  | word w =>
    rw [rowLanguage_word (settles_none false), rowLanguage, one_mul, whole, language_word, stem,
      if_neg (by simp), spread]
    · simp [follow]
    · simp
  | optional p =>
    have first : mergeNode none (node (.optional p)) (rowOf (node (.optional p))) =
        [.optional (textGroup false p.words .none)] := rowOf_optional p
    have space : Node.ofText (pending false []) = [] := rfl
    have later : ∀ c ∈ (rest.dropWhile isOptional).head?, c.isWord = true := opens rfl
    rw [parts_cons (by simp), space, List.nil_append, rowOfAll, first, rowLanguage_led _ later,
      language_wording, whole]
  | choice | bare => exact rowLanguage_chosen rfl rfl

/-! ## What the clauses stand for -/

/-- The last clause is an optional phrase, and it is left out. -/
def endsLoose (cs : List Clause) (wss : List (List PlainWord)) : Bool :=
  cs.getLast?.any isOptional && wss.getLast?.any List.isEmpty

/-- Blanks after the end, if it is loose. -/
def trail (loose : Bool) : TextLanguage := if loose then slack else 1

theorem trail_false : trail false = 1 := rfl

variable {wss : List (List PlainWord)} {t : Text}

theorem ne_nil_of_selections (chosen : c.isOptional = false) (h : ws ∈ c.selections) : ws ≠ [] := by
  cases c with
  | word w =>
    rw [List.mem_singleton.1 h]
    simp
  | optional p => cases chosen
  | choice round first second more =>
    obtain ⟨p, -, rfl⟩ := List.mem_map.1 h
    exact p.words_ne_nil
  | bare first second more =>
    obtain ⟨w, -, rfl⟩ := List.mem_map.1 h
    simp

/-- The texts of a clause after something else, if it is not left out. -/
theorem mem_spaces_mul_language (chosen : c.isOptional = false) (M : TextLanguage) :
    t ∈ spaces * c.language * M ↔ ∃ ws ∈ c.selections, t ∈ follow ws * M := by
  simp only [Language.mem_mul, mem_language]
  constructor
  · rintro ⟨_, ⟨g, hg, u, ⟨ws, hws, hu⟩, rfl⟩, v, hv, rfl⟩
    refine ⟨ws, hws, g ++ u, ?_, v, hv, rfl⟩
    rw [follow_eq (ne_nil_of_selections chosen hws)]
    exact Language.append_mem_mul hg hu
  · rintro ⟨ws, hws, u, hu, v, hv, rfl⟩
    rw [follow_eq (ne_nil_of_selections chosen hws)] at hu
    obtain ⟨g, hg, z, hz, rfl⟩ := Language.mem_mul.1 hu
    exact ⟨g ++ z, ⟨g, hg, z, ⟨ws, hws, hz⟩, rfl⟩, v, hv, rfl⟩

theorem mem_continued_cons (more : cs ≠ []) :
    t ∈ continued (c :: cs) ↔ ∃ ws ∈ c.selections, t ∈ follow ws * continued cs := by
  cases chosen : c.isOptional with
  | false =>
    have added : continued (c :: cs) = spaces * c.language * continued cs := by
      cases c <;> first | rfl | cases chosen
    rw [added, mem_spaces_mul_language chosen]
  | true =>
    obtain _ | p | _ | _ := c <;> cases chosen
    rw [continued, if_neg (by simpa using more), add_mul, Language.mem_add]
    simp [selections, follow]

theorem mem_continued_singleton : t ∈ continued [c] ↔
    ∃ ws ∈ c.selections, t ∈ follow ws * trail (c.isOptional && ws.isEmpty) := by
  cases chosen : c.isOptional with
  | false =>
    have added : continued [c] = spaces * c.language * 1 := by
      cases c <;> first | rfl | cases chosen
    rw [added, mem_spaces_mul_language chosen]
    rfl
  | true =>
    obtain _ | p | _ | _ := c <;> cases chosen
    have present : p.words.isEmpty = false := by simp [p.words_ne_nil]
    have absent : follow [] * trail true = slack := one_mul _
    rw [continued, List.isEmpty_nil, if_pos rfl, continued, mul_one, Language.mem_add]
    simp only [selections, List.mem_cons, List.not_mem_nil, or_false, exists_eq_or_imp, exists_eq_left,
      Bool.true_and, List.isEmpty_nil, present, absent, trail_false, mul_one]

theorem endsLoose_cons (more : cs ≠ []) (same : wss.length = cs.length) :
    endsLoose (c :: cs) (ws :: wss) = endsLoose cs wss := by
  obtain ⟨d, cs, rfl⟩ := List.exists_cons_of_ne_nil more
  obtain _ | ⟨vs, wss⟩ := wss
  · cases same
  · rw [endsLoose, endsLoose, List.getLast?_cons_cons, List.getLast?_cons_cons]

/-- What clauses add after something else is a choice for each, with blanks in front of each word. -/
theorem mem_continued_iff : t ∈ continued cs ↔
    ∃ wss, List.Forall₂ (fun ws c => ws ∈ selections c) wss cs ∧
      t ∈ follow wss.flatten * trail (endsLoose cs wss) := by
  induction cs generalizing t with
  | nil =>
    simp [continued, endsLoose, trail, follow]
  | cons c rest ih =>
    by_cases none : rest = []
    · subst none
      rw [mem_continued_singleton]
      simp [List.forall₂_cons_right_iff, endsLoose]
    · rw [mem_continued_cons none]
      constructor
      · rintro ⟨ws, own, mem⟩
        obtain ⟨u, hu, v, hv, rfl⟩ := Language.mem_mul.1 mem
        obtain ⟨wss, later, hv⟩ := ih.1 hv
        refine ⟨ws :: wss, .cons own later, ?_⟩
        rw [List.flatten_cons, follow_append, mul_assoc, endsLoose_cons none later.length_eq]
        exact Language.append_mem_mul hu hv
      · rintro ⟨_, selected, mem⟩
        obtain ⟨ws, wss, own, later, rfl⟩ := List.forall₂_cons_right_iff.1 selected
        rw [List.flatten_cons, follow_append, mul_assoc, endsLoose_cons none later.length_eq] at mem
        obtain ⟨u, hu, v, hv, rfl⟩ := Language.mem_mul.1 mem
        exact ⟨ws, own, Language.append_mem_mul hu (ih.2 ⟨wss, later, hv⟩)⟩

theorem endsLoose_cons_chosen (chosen : c.isOptional = false) (same : wss.length = cs.length) :
    endsLoose (c :: cs) (ws :: wss) = endsLoose cs wss := by
  by_cases more : cs = []
  · subst more
    simp [endsLoose, chosen]
  · exact endsLoose_cons more same

/-- A clause that is not left out, and what clauses add after it. -/
theorem mem_language_mul_iff (chosen : c.isOptional = false) :
    t ∈ c.language * continued cs ↔
      ∃ wss, List.Forall₂ (fun ws c => ws ∈ selections c) wss (c :: cs) ∧
        t ∈ spread wss.flatten * trail (endsLoose (c :: cs) wss) := by
  constructor
  · intro mem
    obtain ⟨u, ⟨ws, own, hu⟩, v, hv, rfl⟩ := Language.mem_mul.1 mem
    obtain ⟨wss, later, hv⟩ := mem_continued_iff.1 hv
    refine ⟨ws :: wss, .cons own later, ?_⟩
    rw [List.flatten_cons, spread_append (ne_nil_of_selections chosen own), mul_assoc,
      endsLoose_cons_chosen chosen later.length_eq]
    exact Language.append_mem_mul hu hv
  · rintro ⟨_, selected, mem⟩
    obtain ⟨ws, wss, own, later, rfl⟩ := List.forall₂_cons_right_iff.1 selected
    rw [List.flatten_cons, spread_append (ne_nil_of_selections chosen own), mul_assoc,
      endsLoose_cons_chosen chosen later.length_eq] at mem
    obtain ⟨u, hu, v, hv, rfl⟩ := Language.mem_mul.1 mem
    exact Language.append_mem_mul ⟨ws, own, hu⟩ (mem_continued_iff.2 ⟨wss, later, hv⟩)

/-- Blanks at the end pass if the end is loose and something stands in front of it. -/
def isSlack (cs : List Clause) (wss : List (List PlainWord)) : Bool :=
  endsLoose cs wss && cs.any fun c => !c.isOptional

theorem isSlack_cons_optional (same : wss.length = cs.length) :
    isSlack (.optional p :: cs) (ws :: wss) = isSlack cs wss := by
  by_cases more : cs = []
  · subst more
    simp [isSlack, isOptional]
  · rw [isSlack, endsLoose_cons more same]
    rfl

/-- One more optional phrase after others that stand for the words in `S`, some of which stay. -/
theorem mem_led_optional {S : Set (List PlainWord)} (nil : [] ∈ S)
    (texts : ∀ t, t ∈ L ↔ ∃ xs ∈ S, xs ≠ [] ∧ t ∈ spread xs) (p : Wording) :
    t ∈ L * (1 + follow p.words) + spread p.words ↔
      ∃ xs ∈ S, ∃ ws ∈ selections (.optional p), xs ++ ws ≠ [] ∧ t ∈ spread (xs ++ ws) := by
  have ne := p.words_ne_nil
  rw [mul_add, mul_one, Language.mem_add, Language.mem_add, Language.mem_mul]
  simp only [selections, List.mem_cons, List.not_mem_nil, or_false, exists_eq_or_imp,
    exists_eq_left, List.append_nil]
  constructor
  · rintro ((mem | ⟨u, hu, v, hv, rfl⟩) | mem)
    · obtain ⟨xs, hxs, stays, mem⟩ := (texts t).1 mem
      exact ⟨xs, hxs, .inl ⟨stays, mem⟩⟩
    · obtain ⟨xs, hxs, stays, hu⟩ := (texts u).1 hu
      refine ⟨xs, hxs, .inr ⟨List.append_ne_nil_of_left_ne_nil stays _, ?_⟩⟩
      rw [spread_append stays]
      exact Language.append_mem_mul hu hv
    · exact ⟨[], nil, .inr ⟨ne, mem⟩⟩
  · rintro ⟨xs, hxs, ⟨stays, mem⟩ | ⟨-, mem⟩⟩
    · exact .inl (.inl ((texts t).2 ⟨xs, hxs, stays, mem⟩))
    · by_cases none : xs = []
      · subst none
        exact .inr mem
      · rw [spread_append none] at mem
        obtain ⟨u, hu, v, hv, rfl⟩ := Language.mem_mul.1 mem
        exact .inl (.inr ⟨u, (texts u).2 ⟨xs, hxs, none, hu⟩, v, hv, rfl⟩)

/-- What clauses add after optional phrases that stand for the words in `S`. -/
theorem mem_led_iff {S : Set (List PlainWord)} (nil : [] ∈ S)
    (texts : ∀ t, t ∈ L ↔ ∃ xs ∈ S, xs ≠ [] ∧ t ∈ spread xs)
    (opens : ∀ c ∈ (cs.dropWhile isOptional).head?, c.isWord = true) :
    t ∈ led L cs ↔ ∃ xs ∈ S, ∃ wss, List.Forall₂ (fun ws c => ws ∈ selections c) wss cs ∧
      t ∈ spread (xs ++ wss.flatten) * trail (isSlack cs wss) := by
  induction cs generalizing L S t with
  | nil =>
    have alone (xs : List PlainWord) : spread (xs ++ [].flatten) * trail (isSlack [] []) = spread xs := by
      rw [List.flatten_nil, List.append_nil]
      exact mul_one _
    simp only [led, Language.mem_add, texts, List.forall₂_nil_right_iff, exists_eq_left, alone]
    constructor
    · rintro (mem | ⟨xs, hxs, -, mem⟩)
      · exact ⟨[], nil, mem⟩
      · exact ⟨xs, hxs, mem⟩
    · rintro ⟨xs, hxs, mem⟩
      by_cases ne : xs = []
      · subst ne
        exact .inl mem
      · exact .inr ⟨xs, hxs, ne, mem⟩
  | cons c rest ih =>
    cases c with
    | choice | bare => cases opens _ rfl
    | word w =>
      have split : led L (.word w :: rest) = (word w).language * continued rest +
          L * continued (.word w :: rest) := by
        rw [led, add_mul, add_mul, one_mul, continued]
        · simp only [mul_assoc]
        · simp
        · simp
      have same : ∀ wss, isSlack (.word w :: rest) wss = endsLoose (.word w :: rest) wss := by
        intro wss
        simp [isSlack, isOptional]
      rw [split, Language.mem_add, mem_language_mul_iff rfl, Language.mem_mul]
      simp only [same]
      constructor
      · rintro (⟨wss, selected, mem⟩ | ⟨u, hu, v, hv, rfl⟩)
        · exact ⟨[], nil, wss, selected, mem⟩
        · obtain ⟨xs, hxs, ne, hu⟩ := (texts u).1 hu
          obtain ⟨wss, selected, hv⟩ := mem_continued_iff.1 hv
          refine ⟨xs, hxs, wss, selected, ?_⟩
          rw [spread_append ne, mul_assoc]
          exact Language.append_mem_mul hu hv
      · rintro ⟨xs, hxs, wss, selected, mem⟩
        by_cases ne : xs = []
        · subst ne
          exact .inl ⟨wss, selected, mem⟩
        · rw [spread_append ne, mul_assoc] at mem
          obtain ⟨u, hu, v, hv, rfl⟩ := Language.mem_mul.1 mem
          exact .inr ⟨u, (texts u).2 ⟨xs, hxs, ne, hu⟩, v, mem_continued_iff.2 ⟨wss, selected, hv⟩, rfl⟩
    | optional p =>
      let S' : Set (List PlainWord) := {ys | ∃ xs ∈ S, ∃ ws ∈ selections (.optional p), ys = xs ++ ws}
      have nil' : [] ∈ S' := ⟨[], nil, [], List.mem_cons_self, rfl⟩
      have texts' (t : Text) : t ∈ L * (1 + follow p.words) + spread p.words ↔
          ∃ ys ∈ S', ys ≠ [] ∧ t ∈ spread ys := by
        rw [mem_led_optional nil texts]
        constructor
        · rintro ⟨xs, hxs, ws, own, stays, mem⟩
          exact ⟨xs ++ ws, ⟨xs, hxs, ws, own, rfl⟩, stays, mem⟩
        · rintro ⟨_, ⟨xs, hxs, ws, own, rfl⟩, stays, mem⟩
          exact ⟨xs, hxs, ws, own, stays, mem⟩
      rw [led, ih nil' texts' opens]
      constructor
      · rintro ⟨_, ⟨xs, hxs, ws, own, rfl⟩, wss, later, mem⟩
        refine ⟨xs, hxs, ws :: wss, .cons own later, ?_⟩
        rwa [List.flatten_cons, ← List.append_assoc, isSlack_cons_optional later.length_eq]
      · rintro ⟨xs, hxs, _, selected, mem⟩
        obtain ⟨ws, wss, own, later, rfl⟩ := List.forall₂_cons_right_iff.1 selected
        refine ⟨xs ++ ws, ⟨xs, hxs, ws, own, rfl⟩, wss, later, ?_⟩
        rwa [List.flatten_cons, ← List.append_assoc, isSlack_cons_optional later.length_eq] at mem

/-- The texts of an expression in clauses are those of a choice for each clause. -/
theorem mem_whole_iff (opens : Opens cs) : t ∈ whole cs ↔
    ∃ wss, List.Forall₂ (fun ws c => ws ∈ selections c) wss cs ∧
      t ∈ spread wss.flatten * trail (isSlack cs wss) := by
  obtain _ | ⟨c, rest⟩ := cs
  · have none : spread [].flatten * trail (isSlack [] []) = 1 := mul_one _
    simp only [whole, List.forall₂_nil_right_iff, exists_eq_left, none]
  · cases chosen : c.isOptional with
    | false =>
      have added : whole (c :: rest) = c.language * continued rest := by
        cases c <;> first | rfl | cases chosen
      have slack : ∀ wss, isSlack (c :: rest) wss = endsLoose (c :: rest) wss := by
        intro wss
        simp [isSlack, chosen]
      simp only [added, mem_language_mul_iff chosen, slack]
    | true =>
      obtain _ | p | _ | _ := c <;> cases chosen
      let S : Set (List PlainWord) := {ws | ws ∈ selections (.optional p)}
      have texts (t : Text) : t ∈ spread p.words ↔ ∃ ws ∈ S, ws ≠ [] ∧ t ∈ spread ws := by
        simp [S, selections, p.words_ne_nil]
      have later : ∀ c ∈ (rest.dropWhile isOptional).head?, c.isWord = true := opens rfl
      rw [whole, mem_led_iff (S := S) List.mem_cons_self texts later]
      constructor
      · rintro ⟨ws, own, wss, selected, mem⟩
        refine ⟨ws :: wss, .cons own selected, ?_⟩
        rwa [List.flatten_cons, isSlack_cons_optional selected.length_eq]
      · rintro ⟨_, selected, mem⟩
        obtain ⟨ws, wss, own, others, rfl⟩ := List.forall₂_cons_right_iff.1 selected
        rw [List.flatten_cons, isSlack_cons_optional others.length_eq] at mem
        exact ⟨ws, own, wss, others, mem⟩

end StepMatch.Clause
