/-!
# Registries

Things with names, kept in the order of their names. A thing that is registered under a name in
use takes the place of the one that was there: a look-up gives what was registered last.
-/

namespace StepMatch

/-- Things that have a name to be registered under. -/
class Named (α : Type) where
  name : α → String

variable {α : Type} [Named α]

/-- Puts a thing into a list in the order of names, in place of one with its name. -/
def insertNamed (a : α) : List α → List α
  | [] => [a]
  | b :: bs =>
    if Named.name a < Named.name b then a :: b :: bs
    else if Named.name a = Named.name b then a :: bs
    else b :: insertNamed a bs

theorem mem_of_mem_insertNamed {a b : α} {as : List α} (h : b ∈ insertNamed a as) :
    b = a ∨ b ∈ as := by
  induction as with
  | nil => simpa [insertNamed] using h
  | cons c cs ih =>
    simp only [insertNamed] at h
    split at h
    · simpa using h
    · split at h
      · exact (List.mem_cons.1 h).imp_right (List.mem_cons_of_mem c)
      · rcases List.mem_cons.1 h with rfl | h
        · exact .inr List.mem_cons_self
        · exact (ih h).imp_right (List.mem_cons_of_mem c)

theorem pairwise_insertNamed (a : α) {as : List α}
    (h : as.Pairwise fun x y => Named.name x < Named.name y) :
    (insertNamed a as).Pairwise fun x y => Named.name x < Named.name y := by
  induction as with
  | nil => simp [insertNamed]
  | cons b bs ih =>
    obtain ⟨before, rest⟩ := List.pairwise_cons.1 h
    simp only [insertNamed]
    split
    · rename_i lt
      refine List.pairwise_cons.2 ⟨fun c hc => ?_, h⟩
      rcases List.mem_cons.1 hc with rfl | hc
      · exact lt
      · exact String.lt_trans lt (before c hc)
    · rename_i notLt
      split
      · rename_i same
        exact List.pairwise_cons.2 ⟨fun c hc => same ▸ before c hc, rest⟩
      · rename_i differ
        refine List.pairwise_cons.2 ⟨fun c hc => ?_, ih rest⟩
        rcases mem_of_mem_insertNamed hc with rfl | hc
        · exact ((Std.lt_trichotomy _ _).resolve_left notLt).resolve_left differ
        · exact before c hc

/-- Things in the order of their names, each name once. -/
structure Registry (α : Type) [Named α] where
  entries : List α := []
  ordered : entries.Pairwise (fun a b => Named.name a < Named.name b) := by
    exact List.Pairwise.nil

/-- A look-up under a name that is not registered, with the names that are. -/
structure UnknownName where
  name : String
  known : List String
deriving DecidableEq, Repr

namespace Registry

/-- Nothing registered. -/
def empty : Registry α := {}

/-- Registers a thing. -/
def register (r : Registry α) (a : α) : Registry α :=
  ⟨insertNamed a r.entries, pairwise_insertNamed a r.ordered⟩

/-- Registers things in order. -/
def registerAll (r : Registry α) (as : List α) : Registry α := as.foldl register r

/-- The things in the order of their names. -/
def toList (r : Registry α) : List α := r.entries

/-- The names, in ascending order. -/
def names (r : Registry α) : List String := r.entries.map Named.name

/-- The thing that is registered under a name. -/
def get? (r : Registry α) (name : String) : Option α :=
  r.entries.find? fun a => Named.name a == name

/-- The thing that is registered under a name, or what is known instead. -/
def find (r : Registry α) (name : String) : Except UnknownName α :=
  match r.get? name with
  | some a => .ok a
  | none => .error ⟨name, r.names⟩

theorem get?_register (r : Registry α) (a : α) (name : String) :
    (r.register a).get? name = if Named.name a = name then some a else r.get? name := by
  simp only [get?, register]
  induction r.entries with
  | nil => by_cases h : Named.name a = name <;> simp [insertNamed, h]
  | cons b bs ih =>
    simp only [insertNamed]
    by_cases h : Named.name a = name
    · split
      · simp [h]
      · split
        · simp [h]
        · rename_i differ
          have hb : (Named.name b == name) = false := by simpa [← h] using Ne.symm differ
          simp [hb, ih, h]
    · split
      · simp [h]
      · split
        · rename_i same
          simp [h, ← same]
        · simp [ih, h, List.find?_cons]

/-- The registry in which each thing is replaced by one of the same name. -/
def map {β : Type} [Named β] (f : α → β) (sameName : ∀ a, Named.name (f a) = Named.name a)
    (r : Registry α) : Registry β :=
  ⟨r.entries.map f, List.pairwise_map.2 (by simpa only [sameName] using r.ordered)⟩

theorem find_map {β : Type} [Named β] (f : α → β) (sameName : ∀ a, Named.name (f a) = Named.name a)
    (r : Registry α) (name : String) : (r.map f sameName).find name = (r.find name).map f := by
  have names : (r.map f sameName).names = r.names := by simp [names, map, sameName]
  have got : (r.map f sameName).get? name = (r.get? name).map f := by
    simp only [get?, map, List.find?_map]
    congr 2
    funext a
    simp [sameName]
  simp only [find, names, got]
  cases r.get? name <;> rfl

theorem map_register {β : Type} [Named β] (f : α → β)
    (sameName : ∀ a, Named.name (f a) = Named.name a) (r : Registry α) (a : α) :
    (r.register a).map f sameName = (r.map f sameName).register (f a) := by
  have inserted (as : List α) : (insertNamed a as).map f = insertNamed (f a) (as.map f) := by
    induction as with
    | nil => rfl
    | cons b bs ih =>
      simp only [insertNamed, List.map_cons, sameName]
      split
      · rfl
      · split
        · rfl
        · rw [List.map_cons, ih]
  simp only [register, map, inserted]

theorem mem_of_find {r : Registry α} {name : String} {a : α} (h : r.find name = .ok a) :
    a ∈ r.toList := by
  unfold find at h
  split at h
  · rename_i found
    cases h
    exact List.mem_of_find?_eq_some found
  · cases h

end Registry
end StepMatch
