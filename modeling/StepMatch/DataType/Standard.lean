import StepMatch.DataType.Fixed
import StepMatch.DataType.Number
import StepMatch.DataType.Temporal

/-!
# The standard data types

The data types that every author can rely on.
-/

namespace StepMatch

/-- Data types by name. -/
abbrev DataTypes := Registry DataType

namespace DataTypes

/-- The standard data types. -/
def standard : DataTypes :=
  Registry.empty.registerAll
    [.word, .identifier, .quotedText, .integer, .long "number", .long "long",
      .decimal "decimal", .date, .time, .dateTime]

end DataTypes
end StepMatch
