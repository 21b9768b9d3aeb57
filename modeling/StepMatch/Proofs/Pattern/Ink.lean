import StepMatch.Proofs.Pattern.Rows
import StepMatch.Proofs.Regex.Anchored
import StepMatch.Pattern.Fragment

/-!
# What merging keeps

Merging moves blanks about, and nothing else. Seen without its blanks, each text that the pattern of
a tree accepts is one that the tree stands for, and the other way round. Taking the blanks out of the
texts of a language respects alternatives and concatenation, and so each merge can be checked by
itself.
-/

namespace StepMatch

namespace Node

mutual

/-- The texts that a tree stands for: optional parts are there or not, of a choice there is one
alternative, a wildcard is any text within a line. Slots and negations stand for none. -/
def realisations : Node → TextLanguage
  | .sequence children => concatRealisations children
  | .literal t => {t}
  | .optional child => 1 + realisations child
  | .choice _ alternatives => choiceRealisations alternatives
  | .wildcard => Regex.line
  | .negation .. | .argument .. | .assertion .. => 0

/-- The texts that trees stand for one after the other. -/
def concatRealisations : List Node → TextLanguage
  | [] => 1
  | n :: ns => realisations n * concatRealisations ns

/-- The texts that any of the trees stands for. -/
def choiceRealisations : List Node → TextLanguage
  | [] => 0
  | n :: ns => realisations n + choiceRealisations ns

end

end Node

namespace Pattern

open Regex (spaces)

/-- The texts of a language without their blanks. -/
def inked (L : TextLanguage) : TextLanguage := {u | ∃ t ∈ L, t.filter isInk = u}

variable {L M : TextLanguage} {ps qs : List Part} {g : Group} {n : Node} {ns : List Node}

theorem mem_inked {u : Text} : u ∈ inked L ↔ ∃ t ∈ L, t.filter isInk = u := Iff.rfl

@[simp] theorem inked_singleton (t : Text) : inked {t} = {t.filter isInk} := by
  ext u
  exact ⟨fun ⟨_, e, e'⟩ => e ▸ e'.symm, fun e => ⟨t, rfl, e.symm⟩⟩

@[simp] theorem inked_one : inked 1 = 1 := inked_singleton []

@[simp] theorem inked_add (L M : TextLanguage) : inked (L + M) = inked L + inked M := by
  refine Language.ext fun u => ?_
  simp only [mem_inked, Language.mem_add, or_and_right, exists_or]

@[simp] theorem inked_mul (L M : TextLanguage) : inked (L * M) = inked L * inked M := by
  refine Language.ext fun u => ?_
  simp only [mem_inked, Language.mem_mul]
  constructor
  · rintro ⟨_, ⟨t, ht, v, hv, rfl⟩, rfl⟩
    exact ⟨_, ⟨t, ht, rfl⟩, _, ⟨v, hv, rfl⟩, (List.filter_append t v).symm⟩
  · rintro ⟨_, ⟨t, ht, rfl⟩, _, ⟨v, hv, rfl⟩, rfl⟩
    exact ⟨_, ⟨t, ht, v, hv, rfl⟩, List.filter_append t v⟩

theorem inked_blank {t : Text} (h : t ∈ L) (blank : ∀ t ∈ L, ∀ c ∈ t, isBlank c) : inked L = 1 := by
  have none : ∀ t ∈ L, t.filter isInk = [] := fun t ht => by
    rw [List.filter_eq_nil_iff]
    intro c hc
    simp [isInk, blank t ht c hc]
  refine Language.ext fun u => ?_
  rw [Language.mem_one]
  constructor
  · rintro ⟨v, hv, rfl⟩
    exact none v hv
  · rintro rfl
    exact ⟨t, h, none t h⟩

@[simp] theorem inked_spaces : inked spaces = 1 :=
  inked_blank (t := [' ']) ⟨by simp, by simp [isBlank]⟩ fun _ h => h.2

@[simp] theorem inked_slack : inked Regex.slack = 1 :=
  inked_blank (t := []) (fun _ h => by cases h) fun _ h => h

@[simp] theorem inked_space : ∀ s : Space, inked s.language = 1
  | .none => inked_one
  | .slack => inked_slack
  | .blanks => inked_spaces

/-- Relaxing the blanks at the end of a row changes nothing but blanks. -/
theorem inked_relax (h : relaxRow? ps = some qs) :
    inked (rowLanguage qs) = inked (rowLanguage ps) := by
  obtain ⟨row, g, g', relaxed, rfl, rfl⟩ := relaxRow?_eq_some_iff.1 h
  have same : inked g'.language = inked g.language := by
    obtain ⟨rfl, rfl⟩ | ⟨lead, first, more, rfl, rfl⟩ := Group.relax?_cases relaxed <;>
      simp [Group.language]
  simp only [rowLanguage_append, rowLanguage, Part.language, inked_mul, same]

/-- Nor does taking the blanks after an optional group in. -/
theorem inked_absorb (ps qs : List Part) :
    inked (rowLanguage (absorbRow ps qs)) = inked (rowLanguage ps) * inked (rowLanguage qs) := by
  rw [absorbRow]
  split
  · rename_i lone padded
    obtain rfl := loneOptional?_eq_some_iff.1 lone
    obtain ⟨first, more, tail, rest, ⟨rfl, rfl⟩ | ⟨rfl, rfl⟩⟩ := padded?_eq_some_iff.1 padded <;>
      simp [rowLanguage, Part.language, Group.language]
  · rw [rowLanguage_append, inked_mul]

/-- A merge changes nothing but blanks. -/
theorem inked_merge (ps qs : List Part) {optional? : Option Group} (wildcard : Bool)
    (lone : ∀ g, optional? = some g → qs = [.optional g]) :
    inked (rowLanguage (mergeRow ps qs optional? wildcard)) =
      inked (rowLanguage ps) * inked (rowLanguage qs) := by
  rw [mergeRow.eq_def]
  split
  · rename_i h
    obtain rfl := lone h rfl
    split
    · rename_i gapped
      obtain rfl := gapped?_eq_some_iff.1 gapped
      simp [rowLanguage, Part.language, Group.language, Space.language, mul_add, add_mul]
      ac_rfl
    · rename_i relaxed
      simp [rowLanguage_append, inked_relax relaxed, rowLanguage, Part.language]
    · exact inked_absorb ps _
  · split
    · rename_i relaxed
      rw [rowLanguage_append, inked_mul, inked_relax relaxed]
    · exact inked_absorb ps qs

theorem inked_words (first : Word) (more : List Word) :
    inked (wordsLanguage first more) = {((first :: more).map Word.text).flatten} := by
  have ink (w : Word) : w.text.filter isInk = w.text := List.filter_eq_self.2 w.ink
  have later : inked (more.map fun w => spaces * {w.text}).prod =
      {(more.map Word.text).flatten} := by
    induction more with
    | nil => exact inked_one
    | cons w more ih =>
      rw [List.map_cons, List.prod_cons, inked_mul, ih, inked_mul, inked_spaces, one_mul,
        inked_singleton, ink, Regex.singleton_mul_singleton]
      rfl
  rw [wordsLanguage, inked_mul, later, inked_singleton, ink, Regex.singleton_mul_singleton]
  rfl

/-- Literal text keeps its words. -/
theorem inked_literalGroup (t : Text) : inked (literalGroup t).language = {t.filter isInk} := by
  rw [← Text.flatten_words, ← map_wordsOf, literalGroup]
  cases wordsOf t with
  | nil =>
    rw [Group.language, inked_space]
    rfl
  | cons first more => simp [Group.language, inked_words]

theorem language_atomGroup (ps : List Part) : (atomGroup ps).language = rowLanguage ps := by
  rw [atomGroup.eq_def]
  split <;> simp [Group.language, Space.language, rowLanguage, Part.language]

theorem optionalOf?_eq_some {g : Group} (h : optionalOf? n ps = some g) : ps = [.optional g] := by
  cases n with
  | optional child => exact loneOptional?_eq_some_iff.1 h
  | _ => cases h

/-- So merging several rows keeps the text without its blanks, if each row does. -/
theorem inked_rowOfAll (each : ∀ n ∈ ns, inked (rowLanguage (rowOf n)) = inked n.realisations)
    (merged : Option (List Part)) :
    inked (rowLanguage (rowOfAll merged ns)) =
      inked (rowLanguage (merged.getD [])) * inked (Node.concatRealisations ns) := by
  induction ns generalizing merged with
  | nil => rw [rowOfAll, Node.concatRealisations, inked_one, mul_one]
  | cons n ns ih =>
    rw [rowOfAll, ih fun n hn => each n (List.mem_cons_of_mem _ hn), Node.concatRealisations,
      inked_mul, ← each n List.mem_cons_self, ← mul_assoc]
    congr 1
    cases merged with
    | none => simp [mergeNode, rowLanguage]
    | some before => exact inked_merge before _ _ fun _ => optionalOf?_eq_some

/-- Without blanks, the row of a tree and the tree stand for the same texts. -/
theorem inked_rowOf (h : n.Plain) : inked (rowLanguage (rowOf n)) = inked n.realisations := by
  induction h with
  | sequence _ _ ih =>
    rw [rowOf, inked_rowOfAll ih, Node.realisations]
    simp [rowLanguage]
  | literal => simp [rowOf, rowLanguage, Part.language, inked_literalGroup, Node.realisations]
  | optional _ ih =>
    simp [rowOf, rowLanguage, Part.language, language_atomGroup, ih, Node.realisations]
  | @choice delimiter alternatives two _ ih =>
    have others : ∀ ns : List Node, (∀ n ∈ ns, inked (rowLanguage (rowOf n)) = inked n.realisations) →
        inked (othersLanguage (rowsOf ns)) = inked (Node.choiceRealisations ns) := by
      intro ns each
      induction ns with
      | nil => rfl
      | cons n ns ih =>
        rw [rowsOf, othersLanguage, Node.choiceRealisations, inked_add, inked_add,
          each n List.mem_cons_self, ih fun n hn => each n (List.mem_cons_of_mem _ hn)]
    obtain _ | ⟨n, ns⟩ := alternatives
    · simp at two
    · have e := others (n :: ns) ih
      rw [rowsOf, othersLanguage] at e
      simpa [rowOf, rowsOf, rowLanguage, Part.language, Group.language, Node.realisations] using e
  | wildcard => simp [rowOf, rowLanguage, Part.language, Group.language, Node.realisations]

end Pattern

namespace Fragment

theorem push_plain {n : Node} (h : n.Plain) {p : Pattern} (r : Pattern.Renders n p)
    (before : List Fragment) : push before n = .ok (pushPattern p before) := by
  cases h <;> rw [push, r.rendered] <;> first | rfl | simp

/-- Plain trees after a pattern merge into it. -/
theorem foldlM_push_plain {ns : List Node} (plain : ∀ n ∈ ns, n.Plain) {m p : Pattern}
    (h : Pattern.concat (some m) ns = .ok p) (before : List Fragment) :
    ns.foldlM push (.pattern m :: before) = .ok (.pattern p :: before) := by
  induction ns generalizing m with
  | nil => cases h; rfl
  | cons n ns ih =>
    obtain ⟨q, r⟩ := Pattern.exists_renders (plain n List.mem_cons_self)
    rw [Pattern.concat, r.rendered] at h
    rw [List.foldlM_cons, push_plain (plain n List.mem_cons_self) r]
    exact ih (fun n hn => plain n (List.mem_cons_of_mem _ hn)) h

/-- A plain tree is a single fragment, its pattern. -/
theorem ofNode_plain {n : Node} (h : n.Plain) {p : Pattern} (r : Pattern.Renders n p) :
    ofNode n = .ok [.pattern p] := by
  have lone : n.parts = [n] → ofNode n = .ok [.pattern p] := fun e => by
    rw [ofNode, e, List.foldlM_cons, push_plain h r]
    rfl
  cases h with
  | @sequence children two each =>
    obtain _ | ⟨n, ns⟩ := children
    · simp at two
    · obtain ⟨q, hq⟩ := Pattern.exists_renders (each n List.mem_cons_self)
      have rendered := r.rendered
      rw [Pattern.ofNode, Pattern.concat, hq.rendered] at rendered
      rw [ofNode, Node.parts, List.foldlM_cons, push_plain (each n List.mem_cons_self) hq]
      change Except.map List.reverse (List.foldlM push [.pattern q] ns) = _
      rw [foldlM_push_plain (fun n hn => each n (List.mem_cons_of_mem _ hn)) rendered]
      rfl
  | literal | optional | choice | wildcard => exact lone rfl

/-- Merging changes nothing but blanks. The pattern of an expression without slots and negations
accepts a text, blanks left out, exactly when the expression stands for one. -/
theorem exists_accepted_iff_exists_realisation (d : Regex.Dialect) {expression : Text} {n : Node}
    (parsed : Node.parse expression = .ok n) (slotFree : n.containsSlot = false)
    (negationFree : n.containsNegation = false) :
    ∃ p r, ofExpression expression = .ok [.pattern p] ∧
      Regex.read? d (Regex.anchored p.regex) = some r ∧
      ∀ u : Text, (∀ c ∈ u, isInk c) →
        ((∃ t, r.isMatch t ∧ t.filter isInk = u) ↔ ∃ s ∈ n.realisations, s.filter isInk = u) := by
  have plain := (Node.formed_of_parse parsed).plain slotFree negationFree
  obtain ⟨p, renders⟩ := Pattern.exists_renders plain
  obtain ⟨r, read, accepts⟩ := (Pattern.writes_row d (Pattern.rowOf n)).read?_anchored
  refine ⟨p, r, ?_, renders.regex ▸ read, fun u _ => ?_⟩
  · rw [ofExpression, parsed]
    exact ofNode_plain plain renders
  · rw [← Pattern.mem_inked, ← Pattern.inked_rowOf plain]
    simp only [accepts]
    exact Pattern.mem_inked.symm

/-- With an optional word in front and one in the middle. -/
theorem exists_accepted_of_optionals :
    ∃ p r, ofExpression "(a) b (c)d".toList = .ok [.pattern p] ∧
      Regex.read? .extended (Regex.anchored p.regex) = some r ∧
      ∀ u : Text, (∀ c ∈ u, isInk c) → ((∃ t, r.isMatch t ∧ t.filter isInk = u) ↔
        ∃ s ∈ (Node.sequence [.optional (.literal "a".toList), .literal " b ".toList,
          .optional (.literal "c".toList), .literal "d".toList]).realisations,
          s.filter isInk = u) :=
  exists_accepted_iff_exists_realisation .extended rfl rfl rfl

end Fragment
end StepMatch
