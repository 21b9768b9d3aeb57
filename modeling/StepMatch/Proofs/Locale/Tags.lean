import Mathlib
import StepMatch.Proofs.Outcomes
import StepMatch.Locale.Tag

/-!
# Canonical tags

A locale that some tag names is known by its canonical tag. The parts of that tag can be told apart: a
script opens with a capital and has four letters, a region is shorter, and a variant is neither.
-/

namespace StepMatch

theorem toLower_ne_dash {c : Char} (h : c ≠ '-') : c.toLower ≠ '-' := by
  intro e
  by_cases upper : c.isUpper
  · have letter := c.isLower_toLower_eq_isAlpha
    rw [e, Char.isAlpha, upper, Bool.true_or] at letter
    exact absurd letter (by decide)
  · exact h ((Char.toLower_eq_of_not_isUpper upper).symm.trans e)

namespace Locale

/-- A tag names the locale. -/
def IsNamed (l : Locale) : Prop := ∃ t, read t = .ok l

/-- A piece of a tag: it holds no dash. -/
def IsSubtag (s : String) : Prop := '-' ∉ s.toList

/-- The parts of a locale are pieces of a tag that can be told apart. -/
structure IsCanonical (l : Locale) : Prop where
  language : IsSubtag l.language
  script : ∀ s ∈ l.script, IsSubtag s ∧ s.toList.length = 4 ∧ s.toList.head?.any Char.isUpper = true
  region : ∀ s ∈ l.region, IsSubtag s ∧ s.toList.length < 4
  variants : ∀ s ∈ l.variants,
    IsSubtag s ∧ 4 ≤ s.toList.length ∧ s.toList.head?.any Char.isUpper = false

/-! ### What is read -/

section Reading

variable {t : Text} {s : String}

theorem not_mem_of_mem_subtags {t u : Text} (h : u ∈ subtags t) : '-' ∉ u := by
  have apart : ∀ {t u : Text}, u ∈ subtags t → ∀ c ∈ u, (c == '-' || c == '_') = false := by
    intro t
    induction t with
    | nil => simp [subtags]
    | cons c t ih =>
      intro u h
      rw [subtags, List.splitOnP_cons_eq_if_modifyHead] at h
      split at h
      · obtain rfl | h := List.mem_cons.1 h
        · simp
        · exact ih h
      · rename_i other
        rw [subtags] at ih
        cases e : t.splitOnP fun c => c == '-' || c == '_' with
        | nil => simp [e] at h
        | cons v rest =>
          rw [e, List.modifyHead_cons] at h
          rw [e] at ih
          obtain rfl | h := List.mem_cons.1 h
          · exact List.forall_mem_cons.2 ⟨by simpa using other, ih List.mem_cons_self⟩
          · exact ih (List.mem_cons_of_mem _ h)
  intro mem
  simpa using apart h '-' mem

theorem toList_asString (t : Text) : t.asString.toList = t := by simp [Text.asString]

theorem isSubtag_lower (h : '-' ∉ t) : IsSubtag (lower t) := by
  rw [IsSubtag, lower, toList_asString, List.mem_map]
  rintro ⟨c, mem, e⟩
  exact toLower_ne_dash (fun dash => h (dash ▸ mem)) e

theorem ne_dash_of_isLetter {c : Char} (h : isLetter c = true) : c ≠ '-' := by
  rintro rfl
  revert h
  decide

theorem isSubtag_of_readLanguage? (e : readLanguage? t = some s) : IsSubtag s := by
  rw [readLanguage?] at e
  split at e <;> cases e
  rename_i h
  simp only [Bool.and_eq_true, List.all_eq_true] at h
  exact isSubtag_lower fun dash => ne_dash_of_isLetter (h.2 _ dash) rfl

theorem toUpper_ne_dash {c : Char} (h : isLetter c = true) : c.toUpper ≠ '-' := by
  intro e
  have upper := c.isUpper_toUpper_eq_isAlpha.trans h
  rw [e] at upper
  revert upper
  decide

theorem of_readScript? (e : readScript? t = some s) :
    IsSubtag s ∧ s.toList.length = 4 ∧ s.toList.head?.any Char.isUpper = true := by
  rw [readScript?.eq_def] at e
  split at e
  · rename_i c t
    split at e <;> cases e
    rename_i h
    simp only [Bool.and_eq_true, beq_iff_eq, List.all_cons, List.all_eq_true] at h
    obtain ⟨length, first, letters⟩ := h
    rw [IsSubtag, toList_asString]
    refine ⟨?_, by simp [length], (Char.isUpper_toUpper_eq_isAlpha _).trans first⟩
    simp only [List.mem_cons, List.mem_map, not_or, not_exists, not_and]
    exact ⟨(toUpper_ne_dash first).symm, fun d hd =>
      toLower_ne_dash (ne_dash_of_isLetter (letters d hd))⟩
  · cases e

theorem of_readRegion? (e : readRegion? t = some s) : IsSubtag s ∧ s.toList.length < 4 := by
  rw [readRegion?] at e
  split at e
  · rename_i h
    cases e
    simp only [Bool.and_eq_true, beq_iff_eq, List.all_eq_true] at h
    rw [IsSubtag, toList_asString, List.length_map]
    refine ⟨?_, by omega⟩
    rw [List.mem_map]
    rintro ⟨c, mem, e⟩
    exact toUpper_ne_dash (h.2 c mem) e
  · split at e <;> cases e
    rename_i h
    simp only [Bool.and_eq_true, beq_iff_eq, List.all_eq_true] at h
    rw [IsSubtag, toList_asString]
    exact ⟨fun dash => by simpa using h.2 _ dash, by omega⟩

theorem of_readVariant? (apart : '-' ∉ t) (e : readVariant? t = some s) :
    IsSubtag s ∧ 4 ≤ s.toList.length ∧ s.toList.head?.any Char.isUpper = false := by
  rw [readVariant?] at e
  split at e <;> cases e
  rename_i h
  refine ⟨isSubtag_lower apart, ?_, ?_⟩
  · simp only [Bool.or_eq_true, Bool.and_eq_true, beq_iff_eq, decide_eq_true_eq] at h
    rw [lower, toList_asString, List.length_map]
    omega
  · rw [lower, toList_asString]
    cases t with
    | nil => rfl
    | cons c t => exact c.isUpper_toLower_eq_false

theorem takeSubtag_cases (read? : Text → Option String) (ts : List Text) :
    (∀ s ∈ (takeSubtag read? ts).1, ∃ t ∈ ts, read? t = some s) ∧ (takeSubtag read? ts).2 ⊆ ts := by
  rw [takeSubtag.eq_def]
  split
  · rename_i t ts
    split
    · rename_i s read
      refine ⟨fun s' same => ?_, List.subset_cons_self _ _⟩
      exact ⟨t, List.mem_cons_self, read.trans same⟩
    · exact ⟨by simp, List.Subset.refl _⟩
  · exact ⟨by simp, List.Subset.refl _⟩

theorem mem_of_mem_variants {ts : List Text} {vs : List String} (e : ts.mapM readVariant? = some vs) :
    ∀ v ∈ vs, ∃ t ∈ ts, readVariant? t = some v := by
  induction ts generalizing vs with
  | nil =>
    cases e
    simp
  | cons t ts ih =>
    rw [List.mapM_cons] at e
    obtain ⟨v, read, e⟩ := Option.bind_eq_some_iff.1 e
    obtain ⟨vs, later, e⟩ := Option.bind_eq_some_iff.1 e
    cases e
    refine List.forall_mem_cons.2 ⟨⟨t, List.mem_cons_self, read⟩, fun v hv => ?_⟩
    obtain ⟨t, mem, read⟩ := ih later v hv
    exact ⟨t, List.mem_cons_of_mem _ mem, read⟩

theorem mem_of_mem_insertVariant {v w : String} {vs : List String} (h : w ∈ insertVariant v vs) :
    w = v ∨ w ∈ vs := by
  induction vs with
  | nil => exact .inl (List.mem_singleton.1 h)
  | cons x xs ih =>
    rw [insertVariant] at h
    split at h
    · exact List.mem_cons.1 h
    · split at h
      · exact .inr h
      · obtain rfl | h := List.mem_cons.1 h
        · exact .inr List.mem_cons_self
        · exact (ih h).imp_right (List.mem_cons_of_mem _)

theorem mem_of_mem_foldr_insertVariant {w : String} {vs : List String}
    (h : w ∈ vs.foldr insertVariant []) : w ∈ vs := by
  induction vs with
  | nil => exact h
  | cons v vs ih =>
    obtain rfl | h := mem_of_mem_insertVariant h
    · exact List.mem_cons_self
    · exact List.mem_cons_of_mem _ (ih h)

end Reading

theorem IsNamed.isCanonical {l : Locale} (h : l.IsNamed) : l.IsCanonical := by
  obtain ⟨t, e⟩ := h
  rw [read] at e
  split at e
  · cases e
  rename_i first rest pieces
  split at e
  · cases e
  rename_i language found
  have apart : ∀ u ∈ rest, '-' ∉ u := fun u mem =>
    not_mem_of_mem_subtags (pieces ▸ List.mem_cons_of_mem _ mem)
  obtain ⟨script, sub⟩ := takeSubtag_cases readScript? rest
  obtain ⟨region, sub'⟩ := takeSubtag_cases readRegion? (takeSubtag readScript? rest).2
  simp only at e
  split at e
  · cases e
  rename_i variants found'
  cases e
  refine ⟨isSubtag_of_readLanguage? found, fun s hs => ?_, fun s hs => ?_, fun s hs => ?_⟩
  · obtain ⟨u, -, read⟩ := script s hs
    exact of_readScript? read
  · obtain ⟨u, -, read⟩ := region s hs
    exact of_readRegion? read
  · obtain ⟨u, mem, read⟩ := mem_of_mem_variants found' s (mem_of_mem_foldr_insertVariant hs)
    exact of_readVariant? (apart u (sub (sub' mem))) read

/-- The pieces of the canonical tag. -/
def pieces (l : Locale) : List String := l.language :: l.script.toList ++ l.region.toList ++ l.variants

theorem IsCanonical.isSubtag {l : Locale} (h : l.IsCanonical) : ∀ s ∈ l.pieces, IsSubtag s := by
  intro s mem
  simp only [pieces, List.cons_append, List.append_assoc, List.mem_cons, List.mem_append,
    Option.mem_toList] at mem
  obtain rfl | mem | mem | mem := mem
  · exact h.language
  · exact (h.script s mem).1
  · exact (h.region s mem).1
  · exact (h.variants s mem).1

theorem IsCanonical.pieces_eq {l l' : Locale} (h : l.IsCanonical) (h' : l'.IsCanonical)
    (same : l.tag = l'.tag) : l.pieces = l'.pieces := by
  have cut : ∀ {l : Locale}, l.IsCanonical →
      l.tag.toList.splitOn '-' = l.pieces.map String.toList := by
    intro l h
    rw [tag, String.toList_intercalate]
    refine List.splitOn_intercalate '-' (fun u mem => ?_) (by simp)
    obtain ⟨s, own, rfl⟩ := List.mem_map.1 mem
    exact h.isSubtag s own
  refine List.map_injective_iff.2 (fun _ _ => String.toList_injective) ?_
  rw [← cut h, ← cut h', same]

/-- A piece that may be left out is known by what no piece behind it is like. -/
theorem eq_of_toList_append {P : String → Prop} {s s' : Option String} {rest rest' : List String}
    (own : ∀ t ∈ s, P t) (own' : ∀ t ∈ s', P t) (other : ∀ t ∈ rest, ¬ P t)
    (other' : ∀ t ∈ rest', ¬ P t) (e : s.toList ++ rest = s'.toList ++ rest') :
    s = s' ∧ rest = rest' := by
  cases s with
  | none =>
    cases s' with
    | none => exact ⟨rfl, e⟩
    | some t =>
      obtain rfl : rest = t :: rest' := e
      exact absurd (own' t rfl) (other t List.mem_cons_self)
  | some t =>
    cases s' with
    | none =>
      obtain rfl : t :: rest = rest' := e
      exact absurd (own t rfl) (other' t List.mem_cons_self)
    | some t' =>
      obtain ⟨rfl, rfl⟩ := List.cons.inj e
      exact ⟨rfl, rfl⟩

/-- No two locales have a tag in common. -/
theorem IsCanonical.eq_of_tag {l l' : Locale} (h : l.IsCanonical) (h' : l'.IsCanonical)
    (same : l.tag = l'.tag) : l = l' := by
  -- what tells a script from all that may follow it, and a region from variants
  let isScript (s : String) : Prop := s.toList.length = 4 ∧ s.toList.head?.any Char.isUpper = true
  let isRegion (s : String) : Prop := s.toList.length < 4
  have behind : ∀ {l : Locale}, l.IsCanonical → (∀ s ∈ l.region.toList ++ l.variants, ¬ isScript s) ∧
      ∀ s ∈ l.variants, ¬ isRegion s := by
    intro l h
    refine ⟨fun s mem script => ?_, fun s mem region => ?_⟩
    · obtain mem | mem := List.mem_append.1 mem
      · have short := (h.region s (Option.mem_toList.1 mem)).2
        have long := script.1
        omega
      · have small := (h.variants s mem).2.2
        rw [script.2] at small
        cases small
    · have long := (h.variants s mem).2.1
      have short : s.toList.length < 4 := region
      omega
  have pieces := h.pieces_eq h' same
  simp only [Locale.pieces, List.cons_append, List.append_assoc, List.cons.injEq] at pieces
  obtain ⟨language, pieces⟩ := pieces
  obtain ⟨script, pieces⟩ := eq_of_toList_append (P := isScript) (fun s hs => (h.script s hs).2)
    (fun s hs => (h'.script s hs).2) (behind h).1 (behind h').1 pieces
  obtain ⟨region, variants⟩ := eq_of_toList_append (P := isRegion) (fun s hs => (h.region s hs).2)
    (fun s hs => (h'.region s hs).2) (behind h).2 (behind h').2 pieces
  cases l
  cases l'
  simp_all

/-- A locale that is named by a tag is known by its canonical tag. -/
theorem tag_injOn : Set.InjOn tag {l | l.IsNamed} := by
  intro l (h : l.IsNamed) l' (h' : l'.IsNamed) same
  exact h.isCanonical.eq_of_tag h'.isCanonical same

end Locale
end StepMatch
