import StepMatch.Inventory
import StepMatch.Object.Stock

/-!
# Inventories of objects

To see what is registered, every object is asked.
-/

namespace StepMatch

/-- The data type as seen from a locale. -/
def TypeObject.seenFrom {ε : Type} (l : Locale) (o : TypeObject) : Keeping ε DataTypeEntry :=
  return ⟨o.base.name, o.base.kind, ← o.regex l, ← o.hints l⟩

/-- The factory as seen from a locale, if its phrases can be built there. -/
def FactoryObject.seenFrom? {ε : Type} (l : Locale) (o : FactoryObject) :
    Keeping ε (Option FactoryEntry) := do
  match ← (o.phrases l).attempt with
  | .ok phrases => return some ⟨o.name, phrases.templates⟩
  | .error _ => return none

/-- What is registered, as seen from a locale. -/
def Stock.inventory {ε : Type} (s : Stock) (l : Locale) : Keeping ε Inventory := do
  let types ← s.types.toList.mapM fun o => o.seenFrom l
  let factories ← s.factories.toList.mapM fun o => o.seenFrom? l
  return ⟨l, types, factories.filterMap id⟩

end StepMatch
