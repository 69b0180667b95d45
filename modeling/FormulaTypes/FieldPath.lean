import FormulaTypes.Bytes

/-!
# Paths of field names

A path is written with dots between its names. A name that has a dot itself stands in single quotes, which are doubled
inside it.
-/

namespace FormulaTypes

/-- The field names from the outermost to the innermost. -/
abbrev FieldPath := List Bytes

namespace FieldPath

/-- Goes down to a field. -/
def push (p : FieldPath) (name : Bytes) : FieldPath := p ++ [name]

/-- Goes up again. -/
def pop (p : FieldPath) : FieldPath := p.dropLast

/-- How a name stands in a path. -/
def nameText (name : Bytes) : Bytes :=
  if name.contains 46 then 39 :: (name.flatMap fun c => if c = 39 then [39, 39] else [c]) ++ [39] else name

/-- The path with dots between its names. -/
def text : FieldPath → Bytes
  | [] => []
  | [name] => nameText name
  | name :: rest => nameText name ++ 46 :: text rest

end FieldPath

end FormulaTypes
