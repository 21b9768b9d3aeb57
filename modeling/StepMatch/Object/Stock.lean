import StepMatch.Object.Basic

/-!
# Stocks of objects

The registries that someone works with. A number stands for one object, and the numbers from
`next` on are free.
-/

namespace StepMatch

/-- Among these things a number stands for one thing, and the numbers from `next` on for none. -/
structure Numbered {α : Type} (number? : α → Option Nat) (next : Nat) (as : List α) : Prop where
  below : ∀ a ∈ as, ∀ n, number? a = some n → n < next
  same : ∀ a ∈ as, ∀ b ∈ as, ∀ n, number? a = some n → number? b = some n → a = b

namespace Numbered

variable {α : Type} {number? : α → Option Nat} {next : Nat} {as bs : List α}

theorem nil : Numbered number? next [] :=
  ⟨fun _ h => absurd h List.not_mem_nil, fun _ h => absurd h List.not_mem_nil⟩

/-- Something new gets the first free number, or none. -/
theorem add (h : Numbered number? next as) {a : α} (free : ∀ n, number? a = some n → n = next)
    (within : ∀ b ∈ bs, b = a ∨ b ∈ as) : Numbered number? (next + 1) bs where
  below b hb n hn := by
    rcases within b hb with rfl | hb
    · have := free n hn
      omega
    · have := h.below b hb n hn
      omega
  same b hb c hc n hn hn' := by
    rcases within b hb with rfl | hb <;> rcases within c hc with rfl | hc
    · rfl
    · have := free n hn
      have := h.below c hc n hn'
      omega
    · have := free n hn'
      have := h.below b hb n hn
      omega
    · exact h.same b hb c hc n hn hn'

end Numbered

/-- The data types of two registries, those that only a factory holds included. -/
def typesInReach (types : Registry TypeObject) (factories : Registry FactoryObject) :
    List TypeObject :=
  types.toList ++ factories.toList.map (·.type)

/-- Registries of objects. -/
structure Stock where
  types : Registry TypeObject := .empty
  factories : Registry FactoryObject := .empty
  /-- The first number that is free. -/
  next : Nat := 0
  typesNumbered : Numbered TypeObject.number? next (typesInReach types factories) := by
    exact Numbered.nil
  factoriesNumbered : Numbered (fun f => some f.number) next factories.toList := by
    exact Numbered.nil

namespace Registry

variable {α : Type} [Named α]

theorem mem_of_mem_register {r : Registry α} {a b : α} (h : b ∈ (r.register a).toList) :
    b = a ∨ b ∈ r.toList :=
  mem_of_mem_insertNamed h

end Registry

namespace TypePlan

theorem number?_object (p : TypePlan) {number n : Nat} (h : (p.object number).number? = some n) :
    n = number := by
  unfold object at h
  split at h
  · exact (Option.some.inj h).symm
  · cases h

end TypePlan

namespace Stock

/-- The data types in reach. -/
def allTypes (s : Stock) : List TypeObject := typesInReach s.types s.factories

theorem mem_allTypes {s : Stock} {o : TypeObject} (h : o ∈ s.types.toList) : o ∈ s.allTypes :=
  List.mem_append_left _ h

theorem type_mem_allTypes {s : Stock} {o : FactoryObject} (h : o ∈ s.factories.toList) :
    o.type ∈ s.allTypes :=
  List.mem_append_right _ (List.mem_map_of_mem h)

/-- What the registered data types are. -/
def baseTypes (s : Stock) : DataTypes := s.types.map TypeObject.base fun _ => rfl

/-- What the registered factories are. -/
def baseFactories (s : Stock) : AssertionFactories :=
  s.factories.map FactoryObject.base FactoryObject.name_base

/-- Registers a new data type. -/
def registerType (s : Stock) (p : TypePlan) : Stock where
  types := s.types.register (p.object s.next)
  factories := s.factories
  next := s.next + 1
  typesNumbered := by
    refine s.typesNumbered.add (fun n h => p.number?_object h) fun b hb => ?_
    rcases List.mem_append.1 hb with hb | hb
    · exact (Registry.mem_of_mem_register hb).imp_right fun h => List.mem_append.2 (.inl h)
    · exact .inr (List.mem_append.2 (.inr hb))
  factoriesNumbered :=
    { below := fun f hf n hn => Nat.lt_succ_of_lt (s.factoriesNumbered.below f hf n hn)
      same := s.factoriesNumbered.same }

/-- Registers a new factory, with a data type of its own. -/
def registerFactory (s : Stock) (p : FactoryPlan) : Stock where
  types := s.types
  factories := s.factories.register ⟨p.name, p.type.object s.next, p.form, s.next⟩
  next := s.next + 1
  typesNumbered := by
    refine s.typesNumbered.add (fun n h => p.type.number?_object h) fun b hb => ?_
    rcases List.mem_append.1 hb with hb | hb
    · exact .inr (List.mem_append.2 (.inl hb))
    · obtain ⟨f, hf, rfl⟩ := List.mem_map.1 hb
      rcases Registry.mem_of_mem_register hf with rfl | hf
      · exact .inl rfl
      · exact .inr (List.mem_append.2 (.inr (List.mem_map_of_mem hf)))
  factoriesNumbered :=
    s.factoriesNumbered.add (fun n h => (Option.some.inj h).symm)
      fun f hf => Registry.mem_of_mem_register hf

theorem baseTypes_registerType (s : Stock) (p : TypePlan) :
    (s.registerType p).baseTypes = s.baseTypes.register p.base :=
  Registry.map_register _ _ _ _

theorem baseFactories_registerFactory (s : Stock) (p : FactoryPlan) :
    (s.registerFactory p).baseFactories
      = s.baseFactories.register (p.form.factory p.name p.type.base) :=
  Registry.map_register _ _ _ _

/-- New registries with these data types and factories. -/
def ofPlans (types : List TypePlan) (factories : List FactoryPlan) : Stock :=
  factories.foldl registerFactory (types.foldl registerType {})

theorem baseTypes_ofPlans (types : List TypePlan) (factories : List FactoryPlan) :
    (ofPlans types factories).baseTypes = Registry.empty.registerAll (types.map (·.base)) := by
  have kept (s : Stock) : (factories.foldl registerFactory s).baseTypes = s.baseTypes := by
    induction factories generalizing s with
    | nil => rfl
    | cons p factories ih => exact ih (s.registerFactory p)
  have added (s : Stock) : (types.foldl registerType s).baseTypes
      = s.baseTypes.registerAll (types.map (·.base)) := by
    induction types generalizing s with
    | nil => rfl
    | cons p types ih =>
      rw [List.foldl_cons, ih, baseTypes_registerType]
      rfl
  exact (kept _).trans (added {})

theorem baseFactories_ofPlans (types : List TypePlan) (factories : List FactoryPlan) :
    (ofPlans types factories).baseFactories
      = Registry.empty.registerAll (factories.map fun p => p.form.factory p.name p.type.base) := by
  have kept (s : Stock) : (types.foldl registerType s).baseFactories = s.baseFactories := by
    induction types generalizing s with
    | nil => rfl
    | cons p types ih => exact ih (s.registerType p)
  have added (s : Stock) : (factories.foldl registerFactory s).baseFactories
      = s.baseFactories.registerAll
          (factories.map fun p => p.form.factory p.name p.type.base) := by
    induction factories generalizing s with
    | nil => rfl
    | cons p factories ih =>
      rw [List.foldl_cons, ih, baseFactories_registerFactory]
      rfl
  rw [ofPlans, added, kept]
  rfl

/-- The standard data types and factories. -/
def standard : Stock := ofPlans TypePlan.standard FactoryPlan.standard

/-- The objects of the standard stock are the standard data types. -/
theorem baseTypes_standard : standard.baseTypes = DataTypes.standard :=
  baseTypes_ofPlans _ _

/-- The objects of the standard stock are the standard factories. -/
theorem baseFactories_standard : standard.baseFactories = AssertionFactories.standard :=
  baseFactories_ofPlans _ _

end Stock
end StepMatch
