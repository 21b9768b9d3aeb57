import StepMatch.Locale.Tag

/-!
# What is kept for each locale

Artefacts that depend on a locale are built once and kept. The first one that is published for a
locale stays; a builder that fails leaves nothing behind.
-/

namespace StepMatch

/-- The artefacts kept so far, at most one for a locale. -/
structure LocaleMemo (α : Type) where
  entries : List (Locale × α) := []
  distinct : (entries.map Prod.fst).Nodup := by exact List.nodup_nil

namespace LocaleMemo

variable {α ε : Type}

/-- Nothing kept yet. -/
def empty : LocaleMemo α := {}

/-- What is kept for a locale. -/
def get? (m : LocaleMemo α) (l : Locale) : Option α := m.entries.lookup l

/-- The number of locales that something is kept for. -/
def size (m : LocaleMemo α) : Nat := m.entries.length

/-- Whether nothing is kept. -/
def isEmpty (m : LocaleMemo α) : Bool := m.entries.isEmpty

theorem get?_eq_none_iff {m : LocaleMemo α} {l : Locale} :
    m.get? l = none ↔ l ∉ m.entries.map Prod.fst := by
  simp only [get?, List.lookup_eq_none_iff, List.mem_map, bne_iff_ne]
  exact ⟨fun h ⟨e, he, same⟩ => h e he same.symm, fun h e he same => h ⟨e, he, same.symm⟩⟩

theorem nodup_append {m : LocaleMemo α} {l : Locale} (h : m.get? l = none) (a : α) :
    ((m.entries ++ [(l, a)]).map Prod.fst).Nodup := by
  have fresh := get?_eq_none_iff.1 h
  rw [List.map_append, List.nodup_append]
  refine ⟨m.distinct, by simp, fun k hk k' hk' same => fresh ?_⟩
  have last : k' = l := List.mem_singleton.1 hk'
  rwa [← last, ← same]

/-- Keeps an artefact, unless there is one for the locale; gives the one that is kept. -/
def publish (m : LocaleMemo α) (l : Locale) (a : α) : α × LocaleMemo α :=
  match h : m.get? l with
  | some kept => (kept, m)
  | none => (a, ⟨m.entries ++ [(l, a)], nodup_append h a⟩)

/-- What is kept for the locale, built now if nothing is. -/
def getOrTryBuild (m : LocaleMemo α) (l : Locale) (build : Unit → Except ε α) :
    Except ε (α × LocaleMemo α) :=
  match m.get? l with
  | some kept => .ok (kept, m)
  | none => (build ()).map (m.publish l)

/-- What is kept for the locale, built now if nothing is, by a builder that cannot fail. -/
def getOrBuild (m : LocaleMemo α) (l : Locale) (build : Unit → α) : α × LocaleMemo α :=
  match m.get? l with
  | some kept => (kept, m)
  | none => m.publish l (build ())

theorem publish_of_some {m : LocaleMemo α} {l : Locale} {kept : α} (h : m.get? l = some kept)
    (a : α) : m.publish l a = (kept, m) := by
  unfold publish
  split
  · rename_i kept' h'
    rw [Option.some.inj (h'.symm.trans h)]
  · rename_i h'
    simp [h'] at h

theorem publish_of_none {m : LocaleMemo α} {l : Locale} (h : m.get? l = none) (a : α) :
    (m.publish l a).1 = a ∧ (m.publish l a).2.entries = m.entries ++ [(l, a)] := by
  unfold publish
  split
  · rename_i h'
    simp [h] at h'
  · exact ⟨rfl, rfl⟩

/-- Publishing changes what is kept for no other locale, and gives what is kept for this one. -/
theorem get?_publish (m : LocaleMemo α) (l l' : Locale) (a : α) :
    (m.publish l a).2.get? l' = if l' = l then some (m.publish l a).1 else m.get? l' := by
  cases h : m.get? l with
  | some kept =>
    rw [publish_of_some h]
    split
    · rename_i same
      rw [same, h]
    · rfl
  | none =>
    obtain ⟨given, entries⟩ := publish_of_none h a
    rw [get?, entries, given, List.lookup_append, ← get?]
    by_cases same : l' = l
    · simp [same, h]
    · simp [same, List.lookup_cons, beq_eq_false_iff_ne.2 same]

/-- What holds of everything kept and of the new artefact holds of what is given for it. -/
theorem fst_publish {P : Locale → α → Prop} {m : LocaleMemo α}
    (kept : ∀ l a, m.get? l = some a → P l a) {l : Locale} {a : α} (new : P l a) :
    P l (m.publish l a).1 := by
  cases h : m.get? l with
  | some b =>
    rw [publish_of_some h]
    exact kept l b h
  | none =>
    rw [(publish_of_none h a).1]
    exact new

/-- What holds of everything kept and of the new artefact holds of everything kept then. -/
theorem forall_kept_publish {P : Locale → α → Prop} {m : LocaleMemo α}
    (kept : ∀ l a, m.get? l = some a → P l a) {l : Locale} {a : α} (new : P l a) (l' : Locale)
    (b : α) (h : (m.publish l a).2.get? l' = some b) : P l' b := by
  rw [get?_publish] at h
  split at h
  · rename_i same
    rw [same, ← Option.some.inj h]
    exact fst_publish kept new
  · exact kept l' b h

/-- Something new is kept only for a locale that nothing was kept for. -/
theorem size_publish (m : LocaleMemo α) (l : Locale) (a : α) :
    (m.publish l a).2.size = if (m.get? l).isSome then m.size else m.size + 1 := by
  cases h : m.get? l with
  | some kept => rw [publish_of_some h]; rfl
  | none => simp [size, (publish_of_none h a).2]

end LocaleMemo
end StepMatch
