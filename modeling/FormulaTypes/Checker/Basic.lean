import FormulaTypes.Ty.Edit
import FormulaTypes.Ty.Equality

/-!
# Checkers

A checker compares types under rules, looks up entities in the directory of the host, and may audit the types that it
builds.
-/

namespace FormulaTypes

/-- What acceptance depends on. -/
structure Rules where
  /-- Every field of a destination has to be in the source, and every literal of a source in the destination. -/
  exact : Bool
  /-- Numbers accept dates and times. -/
  legacyDateTime : Bool
  /-- No plain kind accepts another. -/
  v1 : Bool
  deriving DecidableEq

/-- The rules that hold unless others are given. -/
def Rules.standard : Rules := ⟨true, false, false⟩

/-- How types are compared. -/
structure Checker where
  rules : Rules
  /-- Where entities are looked up; without it an entity accepts only entities. -/
  entities : Option Directory
  /-- Whether the types that are built on the way have to be valid. -/
  audit : Bool

/-- The checker with exact rules. -/
def Checker.exactly (c : Checker) : Checker := { c with rules := { c.rules with exact := true } }

end FormulaTypes
