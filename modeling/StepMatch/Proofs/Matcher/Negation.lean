import StepMatch.Proofs.Expression.Writing
import StepMatch.Proofs.Matcher.Recognition
import StepMatch.Proofs.Pattern.Literals
import StepMatch.Proofs.Regex.Passages

/-!
# Negated phrases

A negated phrase between literal texts looks ahead for the phrase after the blanks in front of it, and
then lets any text pass within the line.
-/

namespace StepMatch

/-- Literal text, a negated phrase and more literal text. -/
def negatedPhrase (left phrase right : Text) : Text :=
  escapeLiteral left ++ '^' :: '[' :: escapeLiteral phrase ++ ']' :: escapeLiteral right

variable {left phrase right : Text}

namespace Node

/-- The tree of a negated phrase between literal texts. -/
theorem parse_negatedPhrase (ne : left ≠ []) (ne' : phrase ≠ []) (star : ['*'] ∉ left.words)
    (star' : ['*'] ∉ phrase.words) (star'' : ['*'] ∉ right.words)
    (blank : phrase.any isBlank = true) :
    parse (negatedPhrase left phrase right) = .ok (.sequence (.literal left ::
      .negation .phrase (.literal phrase) :: ofText right)) := by
  let symbols : List Symbol :=
    .text left :: .negation :: .startGroup :: .text phrase :: .endGroup :: Symbol.ofText right
  have written : symbols.flatMap Symbol.write = negatedPhrase left phrase right := by
    simp [symbols, Symbol.flatMap_write_ofText, Symbol.write, Symbol.describe, negatedPhrase,
      escapeLiteral]
  have texts : .text [] ∉ symbols := by
    by_cases more : right = [] <;> simp [symbols, Symbol.ofText, more, ne, ne']
  have apart : symbols.IsChain Symbol.Apart := by
    by_cases more : right = [] <;> simp [symbols, Symbol.ofText, more, Symbol.Apart]
  rw [← written]
  change _ = Except.ok (ofParts (.literal left :: .negation .phrase (.literal phrase) :: ofText right))
  refine parse_write texts apart ?_ (List.cons_ne_nil _ _)
  refine .text (.negatedPhrase ne' star' blank ?_)
  rw [← List.append_nil (Symbol.ofText right)]
  refine .ofText (.nil rfl ?_)
  simp [Reading.pushText, Reading.push, Node.carve_of_ne_nil ne star, Node.carve_of_words star'',
    Reading.start]

end Node

namespace Pattern

open Regex (Adds Walk Passage WritesSteadily)

theorem writesSteadily_words (d : Regex.Dialect) (first : Word) (more : List Word) :
    WritesSteadily d (writeWords first more) (wordsLanguage first more) := by
  refine (WritesSteadily.escape d first.text).append ?_
  induction more with
  | nil => exact .nil d
  | cons w more ih =>
    rw [List.flatMap_cons, List.map_cons, List.prod_cons]
    exact ((WritesSteadily.blanks d).append (.escape d w.text)).append ih

theorem writesSteadily_ofLead (d : Regex.Dialect) (lead : Bool) :
    WritesSteadily d (Space.ofLead lead).write (Space.ofLead lead).language := by
  cases lead
  · exact .nil d
  · exact .blanks d

/-- The regex of literal text is searched in full next to pieces that look ahead. -/
theorem writesSteadily_literal (d : Regex.Dialect) (t : Text) :
    WritesSteadily d (literalRegex t) (literalGroup t).language := by
  rw [literalRegex_eq, literalGroup]
  cases wordsOf t with
  | nil => exact (writesSteadily_ofLead d _).group
  | cons first more =>
    exact (((writesSteadily_ofLead d _).append (writesSteadily_words d first more)).append
      (writesSteadily_ofLead d _)).group

/-- Patterns of which the right one is neither optional nor a wildcard, and the left one more than an
optional group, are written one after the other. -/
theorem mergeRegex_eq_append {p q : Pattern} (needed : q.isOptional = false)
    (tame : q.literal ≠ ['*']) (several : optionalBody? p.regex = none) :
    mergeRegex p q = p.regex ++ q.regex := by
  have star : (q.literal == ['*']) = false := by simpa using tame
  rw [mergeRegex]
  split
  · simp_all
  · simp [needed, star, absorbRegex, several]

/-- What does not end with a question mark is not an optional group. -/
theorem optionalBody?_eq_none {t : Text} (last : t.getLast? ≠ some '?') : optionalBody? t = none := by
  rw [optionalBody?, withoutEnding?_eq_none, Option.filter_none]
  rintro ⟨u, rfl⟩
  exact last (by simp)

theorem getLast?_literalRegex (t : Text) : (literalRegex t).getLast? = some ')' :=
  List.getLast?_concat

/-- The regex of a negation between literal texts. -/
def negationRegex (scope : NegationScope) (left excluded right : Text) : Text :=
  literalRegex left ++ ('(' :: '?' :: '!' :: literalRegex excluded ++ [')']) ++ negationTail scope ++
    if right = [] then [] else literalRegex right

theorem ofNode_negation (scope : NegationScope) (left excluded : Text) {right : Text}
    (star : ['*'] ∉ right.words) :
    ∃ p, Fragment.ofNode (.sequence (.literal left :: .negation scope (.literal excluded) ::
      Node.ofText right)) = .ok [.pattern p] ∧ p.regex = negationRegex scope left excluded right := by
  let first : Pattern := ⟨literalRegex left, escapeLiteral left⟩
  let second : Pattern := ⟨'(' :: '?' :: '!' :: literalRegex excluded ++ ')' :: negationTail scope,
    (Node.negation scope (.literal excluded)).toExpression⟩
  let third : Pattern := ⟨literalRegex right, escapeLiteral right⟩
  have last (t : Text) : (t ++ second.regex).getLast? ≠ some '?' := by
    have own : (negationTail scope).getLast? ≠ some '?' := by cases scope <;> decide
    have ne : negationTail scope ≠ [] := by cases scope <;> decide
    have e : t ++ second.regex =
        (t ++ '(' :: '?' :: '!' :: literalRegex excluded ++ [')']) ++ negationTail scope := by
      simp [second]
    rwa [e, List.getLast?_append_of_ne_nil _ ne]
  have two : first.mergeRegex second = first.regex ++ second.regex := by
    refine mergeRegex_eq_append ?_ ?_ (optionalBody?_eq_none ?_)
    · rw [isOptional, ← List.nil_append second.regex, beq_eq_false_iff_ne.2 (last [])]
      rfl
    · cases scope <;> simp [second, Node.toExpression, Node.standsAlone]
    · simp [first, getLast?_literalRegex]
  have three : (first.merge second).mergeRegex third = (first.merge second).regex ++ third.regex := by
    refine mergeRegex_eq_append ?_ (escapeLiteral_ne_star (Text.ne_star star)) (optionalBody?_eq_none ?_)
    · simp [third, isOptional, getLast?_literalRegex]
    · rw [merge, two]
      exact last first.regex
  by_cases more : right = []
  · refine ⟨first.merge second, ?_, ?_⟩
    · rw [Node.ofText, if_pos more]
      rfl
    · rw [merge, two, negationRegex, if_pos more]
      simp [first, second]
  · refine ⟨(first.merge second).merge third, ?_, ?_⟩
    · rw [Node.ofText, if_neg more]
      rfl
    · rw [merge, three, merge, two, negationRegex, if_neg more]
      simp [first, second, third]

/-- What the pattern of a negation passes, where `L` is what it takes once it has looked ahead. -/
theorem walks_negationRegex (scope : NegationScope) {L : TextLanguage}
    (tail : WritesSteadily .extended (negationTail scope) L) (left excluded right : Text) :
    Adds .extended (negationRegex scope left excluded right) (Walk true · (((Passage.takes
      (literalGroup left).language).comp (.refuses (literalGroup excluded).language)).comp
        (.takes L) |>.comp (.takes (literalGroup right).language))) := by
  have front := ((writesSteadily_literal .extended left).walks.walks
    (writesSteadily_literal .extended excluded).refusal).walks tail.walks
  have back : WritesSteadily .extended (if right = [] then [] else literalRegex right)
      (literalGroup right).language := by
    split
    · rename_i none
      rw [none]
      exact .nil _
    · exact writesSteadily_literal _ right
  exact front.walks back.walks

/-- The regex of a negated phrase between literal texts. -/
def negatedRegex (left phrase right : Text) : Text :=
  literalRegex left ++ ('(' :: '?' :: '!' :: literalRegex phrase ++ [')']) ++ ['.', '*'] ++
    if right = [] then [] else literalRegex right

theorem ofNode_negatedPhrase (left phrase : Text) {right : Text} (star : ['*'] ∉ right.words) :
    ∃ p, Fragment.ofNode (.sequence (.literal left :: .negation .phrase (.literal phrase) ::
      Node.ofText right)) = .ok [.pattern p] ∧ p.regex = negatedRegex left phrase right :=
  ofNode_negation .phrase left phrase star

/-- What the pattern of a negated phrase passes. -/
theorem walks_negatedRegex (left phrase right : Text) :
    Adds .extended (negatedRegex left phrase right) (Walk true · (((Passage.takes
      (literalGroup left).language).comp (.refuses (literalGroup phrase).language)).comp
        (.takes Regex.line) |>.comp (.takes (literalGroup right).language))) :=
  walks_negationRegex .phrase (.anyText .extended) left phrase right

end Pattern

/-- A text cut into what writes the text on the left, ink at the end and blanks after it, what writes a
phrase, and what writes the text on the right. -/
structure Cut (left phrase right t u g n s : Text) : Prop where
  whole : t = u ++ g ++ n ++ s
  left : Text.Alike (u ++ g) left
  ink : u.endsBlank = false
  ne : u ≠ []
  gap : g ≠ []
  blank : ∀ c ∈ g, isBlank c
  phrase : Text.Alike n phrase
  right : Text.Alike s right

/-- What writes words with blanks after them ends with ink and blanks. -/
theorem exists_cut_left (words : left.words ≠ []) (closes : left.endsBlank = true) {t v : Text}
    (e : Text.squeeze false t = Text.squeeze false left ++ v) :
    ∃ u g rest, t = u ++ g ++ rest ∧ Text.Alike (u ++ g) left ∧ u.endsBlank = false ∧ u ≠ [] ∧
      g ≠ [] ∧ (∀ c ∈ g, isBlank c) ∧ Text.squeeze true rest = v := by
  obtain ⟨front, rest, rfl, own, later⟩ := Text.exists_append_of_squeeze e
  have alike : Text.Alike front left := own
  obtain ⟨g, split, blank, ink⟩ := Text.eq_append_trimRight front
  have ne : front.trimRight ≠ [] := by
    intro none
    rw [none, List.nil_append] at split
    have inkless : front.filter isInk = [] := by
      rw [List.filter_eq_nil_iff]
      intro c hc
      simpa [isInk] using blank c (split ▸ hc)
    obtain ⟨w, more, found⟩ := List.exists_cons_of_ne_nil words
    rw [alike.filter_eq, ← Text.flatten_words, found, List.flatten_cons,
      List.append_eq_nil_iff] at inkless
    exact Text.ne_nil_of_mem_words (found ▸ List.mem_cons_self) inkless.1
  have closes' : front.endsBlank = true := by rw [alike.endsBlank_eq, closes]
  have gap : g ≠ [] := by
    rintro rfl
    rw [List.append_nil] at split
    rw [split, ink] at closes'
    cases closes'
  have front_ne : front ≠ [] := by
    rw [split]
    exact List.append_ne_nil_of_left_ne_nil ne g
  rw [Text.blankAfter_of_ne_nil front_ne, closes'] at later
  refine ⟨front.trimRight, g, rest, ?_, ?_, ink, ne, gap, blank, later⟩
  · rw [← split]
  · rw [← split]
    exact alike

/-- After a blank there may be more, and then what writes the phrase. -/
theorem exists_cut_phrase (ne : phrase ≠ []) (starts : phrase.startsBlank = false)
    (ends : phrase.endsBlank = false) {t v : Text}
    (e : Text.squeeze true t = Text.squeeze true phrase ++ v) :
    ∃ z n rest, t = z ++ n ++ rest ∧ (∀ c ∈ z, isBlank c) ∧ Text.Alike n phrase ∧
      Text.squeeze false rest = v := by
  obtain ⟨x, rest, rfl, own, later⟩ := Text.exists_append_of_squeeze e
  have inked : Text.blankAfter true x = false := by
    rw [← Text.blankAfter_squeeze, own, Text.blankAfter_squeeze, Text.blankAfter_of_ne_nil ne, ends]
  obtain ⟨z, split, blank⟩ := Text.eq_append_trimLeft x
  rw [inked] at later
  refine ⟨z, x.trimLeft, rest, by rw [← split], blank, ?_, later⟩
  rw [Text.Alike, Text.squeeze_of_startsInk (Text.startsBlank_trimLeft x),
    Text.squeeze_of_startsInk starts, Text.squeeze_true_trimLeft, own]

/-- Each text that differs from the three texts in white space alone can be cut so. -/
theorem exists_cut (words : left.words ≠ []) (closes : left.endsBlank = true) (ne : phrase ≠ [])
    (starts : phrase.startsBlank = false) (ends : phrase.endsBlank = false) {t : Text}
    (alike : Text.Alike t (left ++ phrase ++ right)) : ∃ u g n s, Cut left phrase right t u g n s := by
  have left_ne : left ≠ [] := by
    rintro rfl
    exact words rfl
  rw [Text.Alike, List.append_assoc, Text.squeeze_append, Text.blankAfter_of_ne_nil left_ne, closes,
    Text.squeeze_append, Text.blankAfter_of_ne_nil ne, ends] at alike
  obtain ⟨u, g, t', rfl, front, ink, u_ne, gap, blank, rest⟩ := exists_cut_left words closes alike
  obtain ⟨z, n, s, rfl, blank', middle, back⟩ := exists_cut_phrase ne starts ends rest
  refine ⟨u, g ++ z, n, s, by simp, ?_, ink, u_ne, List.append_ne_nil_of_left_ne_nil gap z, ?_,
    middle, back⟩
  · have both : ∀ c ∈ g ++ z, isBlank c := fun c hc =>
      (List.mem_append.1 hc).elim (blank c) (blank' c)
    exact front.append_blanks gap (List.append_ne_nil_of_left_ne_nil gap z) blank both
  · intro c hc
    exact (List.mem_append.1 hc).elim (blank c) (blank' c)

theorem isBlank_of_filter_eq_nil {t : Text} (none : t.filter isInk = []) : ∀ c ∈ t, isBlank c := by
  intro c hc
  simpa [isInk] using List.filter_eq_nil_iff.1 none c hc

theorem isBlank_of_filter_eq {t u : Text} (e : (t ++ u).filter isInk = t.filter isInk) :
    ∀ c ∈ u, isBlank c := by
  rw [List.filter_append] at e
  exact isBlank_of_filter_eq_nil (List.append_right_eq_self.1 e)

theorem startsBlank_append {t : Text} (ne : t ≠ []) (u : Text) :
    Text.startsBlank (t ++ u) = t.startsBlank := by
  rw [Text.startsBlank, List.head?_append_of_ne_nil _ ne]
  rfl

theorem endsBlank_append {u : Text} (ne : u ≠ []) (t : Text) :
    Text.endsBlank (t ++ u) = u.endsBlank := by
  rw [Text.endsBlank, List.getLast?_append_of_ne_nil _ ne]
  rfl

theorem startsBlank_of_blank {u : Text} (ne : u ≠ []) (blank : ∀ c ∈ u, isBlank c) :
    u.startsBlank = true := by
  obtain ⟨c, u, rfl⟩ := List.exists_cons_of_ne_nil ne
  exact blank c List.mem_cons_self

theorem endsBlank_of_blank {u : Text} (ne : u ≠ []) (blank : ∀ c ∈ u, isBlank c) :
    u.endsBlank = true := by
  rw [Text.endsBlank, List.getLast?_eq_some_getLast ne]
  exact blank _ (List.getLast_mem ne)

namespace Cut

variable {t u g n s a rest : Text}

theorem ne_nil_of_phrase (cut : Cut left phrase right t u g n s) (ne : phrase ≠ []) : n ≠ [] := by
  rintro rfl
  exact ne (cut.phrase.eq_nil_iff.1 rfl)

/-- What writes the text on the left ends somewhere in the blanks there, but not in front of them. -/
theorem eq_of_left (cut : Cut left phrase right t u g n s) (closes : left.endsBlank = true)
    (ne : phrase ≠ []) (starts : phrase.startsBlank = false) (alike : Text.Alike a left)
    (e : t = a ++ rest) :
    ∃ g₁ g₂, g = g₁ ++ g₂ ∧ g₁ ≠ [] ∧ a = u ++ g₁ ∧ rest = g₂ ++ n ++ s := by
  have ends : a.endsBlank = true := by rw [alike.endsBlank_eq, closes]
  have same : a.filter isInk = (u ++ g).filter isInk :=
    alike.filter_eq.trans cut.left.filter_eq.symm
  have n_starts : Text.startsBlank (n ++ s) = false := by
    rw [startsBlank_append (cut.ne_nil_of_phrase ne), cut.phrase.startsBlank_eq, starts]
  have whole : a ++ rest = (u ++ g) ++ (n ++ s) := by rw [← e, cut.whole, List.append_assoc _ n]
  rcases List.append_eq_append_iff.1 whole with ⟨z, front, back⟩ | ⟨z, front, back⟩
  · have blank := isBlank_of_filter_eq (front ▸ same.symm)
    rcases List.append_eq_append_iff.1 front with ⟨y, own, split⟩ | ⟨y, own, split⟩
    · refine ⟨y, z, split, ?_, own, by rw [back, List.append_assoc]⟩
      rintro rfl
      rw [own, List.append_nil, cut.ink] at ends
      cases ends
    · exfalso
      have inked := cut.ink
      rw [own] at inked
      by_cases none : y = []
      · rw [none, List.append_nil, ends] at inked
        cases inked
      · rw [endsBlank_append none, endsBlank_of_blank none fun c hc =>
          blank c (split ▸ List.mem_append_left g hc)] at inked
        cases inked
  · have blank := isBlank_of_filter_eq (front ▸ same)
    have none : z = [] := by
      by_contra z_ne
      rw [back, startsBlank_append z_ne, startsBlank_of_blank z_ne blank] at n_starts
      cases n_starts
    subst none
    exact ⟨g, [], by simp, cut.gap, by simpa using front, by simpa using back.symm⟩

/-- What writes the text on the right begins after what writes the phrase. -/
theorem prefix_of_right (cut : Cut left phrase right t u g n s) (ne : phrase ≠ [])
    (ends : phrase.endsBlank = false) {g₂ v s' : Text} (alike : Text.Alike s' right)
    (e : g₂ ++ n ++ s = v ++ s') : g₂ ++ n <+: v := by
  have same : s'.filter isInk = s.filter isInk := alike.filter_eq.trans cut.right.filter_eq.symm
  rcases List.append_eq_append_iff.1 e with ⟨y, front, -⟩ | ⟨y, front, back⟩
  · exact ⟨y, front.symm⟩
  · rw [back, List.filter_append] at same
    have blank := isBlank_of_filter_eq_nil (List.append_left_eq_self.1 same)
    have inked : Text.endsBlank (g₂ ++ n) = false := by
      rw [endsBlank_append (cut.ne_nil_of_phrase ne), cut.phrase.endsBlank_eq, ends]
    by_cases none : y = []
    · rw [none, List.append_nil] at front
      exact ⟨[], by rw [front, List.append_nil]⟩
    · rw [front, endsBlank_append none, endsBlank_of_blank none blank] at inked
      cases inked

/-- The negated phrase is not seen exactly if the search can stand between two blanks in front of it,
and from there to the end of the phrase there is one line. -/
theorem exists_split_iff (cut : Cut left phrase right t u g n s) (closes : left.endsBlank = true)
    (ne : phrase ≠ []) (starts : phrase.startsBlank = false) (ends : phrase.endsBlank = false) :
    (∃ a v s', t = a ++ (v ++ s') ∧ Text.Alike a left ∧ Text.Alike s' right ∧ '\n' ∉ v ∧
      ∀ x, Text.Alike x phrase → ¬ x <+: v ++ s') ↔
    2 ≤ g.length ∧ g.getLast? ≠ some '\n' ∧ '\n' ∉ n := by
  constructor
  · rintro ⟨a, v, s', e, front, back, inLine, unseen⟩
    obtain ⟨g₁, g₂, rfl, g₁_ne, -, rest⟩ := cut.eq_of_left closes ne starts front e
    have g₂_ne : g₂ ≠ [] := by
      rintro rfl
      exact unseen n cut.phrase ⟨s, by rw [rest, List.nil_append]⟩
    obtain ⟨y, own⟩ := cut.prefix_of_right ne ends back rest.symm
    have passed : '\n' ∉ g₂ ++ n := fun mem => inLine (own ▸ List.mem_append_left y mem)
    rw [List.mem_append, not_or] at passed
    refine ⟨?_, ?_, passed.2⟩
    · have := List.length_pos_of_ne_nil g₁_ne
      have := List.length_pos_of_ne_nil g₂_ne
      rw [List.length_append]
      omega
    · intro last
      rw [List.getLast?_append_of_ne_nil _ g₂_ne] at last
      exact passed.1 (List.mem_of_getLast? last)
  · rintro ⟨two, last, inLine⟩
    obtain rfl | ⟨g₁, c, rfl⟩ := List.eq_nil_or_concat' g
    · exact absurd rfl cut.gap
    have g₁_ne : g₁ ≠ [] := by
      rintro rfl
      simp at two
    have blank : isBlank c = true := cut.blank c (by simp)
    refine ⟨u ++ g₁, c :: n, s, ?_, ?_, cut.right, ?_, ?_⟩
    · rw [cut.whole]
      simp
    · exact cut.left.append_blanks cut.gap g₁_ne cut.blank fun d hd =>
        cut.blank d (List.mem_append_left _ hd)
    · simp only [List.mem_cons, not_or]
      exact ⟨fun e => last (by rw [List.getLast?_concat, e]), inLine⟩
    · rintro x alike ⟨y, e⟩
      have x_ne : x ≠ [] := fun none => ne (alike.eq_nil_iff.1 none)
      have same : Text.startsBlank (x ++ y) = Text.startsBlank (c :: n ++ s) := congrArg _ e
      rw [startsBlank_append x_ne, alike.startsBlank_eq, starts] at same
      exact absurd same.symm (by simp [Text.startsBlank, blank])

end Cut

namespace Matcher

/-- A negated phrase shuts a text that writes it out exactly if one blank stands in front of the
phrase, or the phrase and the blank in front of it are not on one line. Of two blanks the text on the
left can take the first alone; the phrase is then looked for at the second, where it does not stand. -/
theorem recognises_negatedPhrase_iff (types : DataTypes) (factories : AssertionFactories)
    (default : Locale) (left phrase right : Text) (words : left.words ≠ [])
    (closes : left.endsBlank = true) (several : 2 ≤ phrase.words.length)
    (starts : phrase.startsBlank = false) (ends : phrase.endsBlank = false)
    (star : ['*'] ∉ left.words) (star' : ['*'] ∉ phrase.words) (star'' : ['*'] ∉ right.words) :
    ∃ m, compile types factories default (negatedPhrase left phrase right) = .ok m ∧
      ∀ t, Text.Alike t (left ++ phrase ++ right) → (∃ u g n s, Cut left phrase right t u g n s) ∧
        ∀ l u g n s, Cut left phrase right t u g n s →
          (m.Recognises l t ↔ 2 ≤ g.length ∧ g.getLast? ≠ some '\n' ∧ '\n' ∉ n) := by
  have ne : left ≠ [] := by
    rintro rfl
    exact words rfl
  have ne' : phrase ≠ [] := by
    rintro rfl
    simp [Text.words, Text.splitWords, Text.closeWord] at several
  have parsed := Node.parse_negatedPhrase ne ne' star star' star''
    (Text.any_isBlank_of_words several)
  obtain ⟨p, fragments, regex⟩ := Pattern.ofNode_negatedPhrase left phrase star''
  obtain ⟨r, read, passes⟩ := (Pattern.walks_negatedRegex left phrase right).isMatch_anchored
  rw [← regex] at read
  obtain ⟨m, compiled, recognises⟩ := exists_compile_of_pattern parsed fragments read
  refine ⟨m, compiled, fun t alike => ⟨exists_cut words closes ne' starts ends alike, ?_⟩⟩
  intro l u g n s cut
  rw [recognises, passes, ← cut.exists_split_iff closes ne' starts ends]
  constructor
  · rintro ⟨m₁, ⟨m₂, ⟨m₃, ⟨a, front, e⟩, rfl, unseen⟩, v, inLine, e'⟩, s', back, e''⟩
    rw [List.append_nil] at e''
    subst e'' e'
    exact ⟨a, v, m₁, e, Pattern.mem_literalGroup_iff.1 front, Pattern.mem_literalGroup_iff.1 back,
      fun mem => inLine _ mem rfl, fun x alike => unseen x (Pattern.mem_literalGroup_iff.2 alike)⟩
  · rintro ⟨a, v, s', e, front, back, inLine, unseen⟩
    refine ⟨s', ⟨v ++ s', ⟨v ++ s', ⟨a, Pattern.mem_literalGroup_iff.2 front, e⟩, rfl, ?_⟩, v, ?_, rfl⟩,
      s', Pattern.mem_literalGroup_iff.2 back, (List.append_nil s').symm⟩
    · intro x hx
      exact unseen x (Pattern.mem_literalGroup_iff.1 hx)
    · intro c hc e
      exact inLine (e ▸ hc)

/-- The phrase is seen after one blank and missed after two. -/
theorem recognises_negatedPhrase_of_blanks : ∃ m,
    compile .standard .standard .default "a ^[b c] d".toList = .ok m ∧
      ¬ m.Recognises .default "a b c d".toList ∧ m.Recognises .default "a  b\tc  d".toList := by
  obtain ⟨m, compiled, shut⟩ := recognises_negatedPhrase_iff .standard .standard .default
    "a ".toList "b c".toList " d".toList (by decide) (by decide) (by decide) (by decide) (by decide)
    (by decide) (by decide) (by decide)
  obtain ⟨-, one⟩ := shut "a b c d".toList (by decide)
  obtain ⟨-, two⟩ := shut "a  b\tc  d".toList (by decide)
  refine ⟨m, compiled, ?_, ?_⟩
  · rw [one .default "a".toList " ".toList "b c".toList " d".toList
      ⟨by decide, by decide, by decide, by decide, by decide, List.all_eq_true.1 (by decide),
        by decide, by decide⟩]
    decide
  · rw [two .default "a".toList "  ".toList "b\tc".toList "  d".toList
      ⟨by decide, by decide, by decide, by decide, by decide, List.all_eq_true.1 (by decide),
        by decide, by decide⟩]
    decide

/-- Two blanks in front of a negated phrase let it pass. -/
theorem recognises_of_two_blanks : ∃ m,
    compile .standard .standard .default "a ^[b c]".toList = .ok m ∧
      Text.Alike "a  b c".toList ("a ".toList ++ "b c".toList) ∧
      m.Recognises .default "a  b c".toList := by
  obtain ⟨m, compiled, matched⟩ := exists_ok
    (x := compile .standard .standard .default "a ^[b c]".toList)
    (p := fun m => (m.matchIn .default "a  b c".toList).toOption.any Option.isSome)
    (by decide +kernel)
  obtain ⟨found, result, some⟩ := exists_ok matched
  refine ⟨m, compiled, by decide, ?_, ?_⟩
  · obtain ⟨p, built, -⟩ := ok_of_bind result
    exact ⟨p, built⟩
  · rw [result]
    rintro ⟨⟩
    cases some

end Matcher

end StepMatch
