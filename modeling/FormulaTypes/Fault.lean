import FormulaTypes.Spec.Error
import FormulaTypes.Ty.Validity

/-!
# Faults

What the host asks for and no type can give: an operation on a kind that has no such operation, a type that is not
valid where types are audited, a literal that is none. An entity that the host itself cannot build is one too.
-/

namespace FormulaTypes

/-- Operations that only some kinds of types have. -/
inductive Operation where
  | add | drop | toRecord | toTable | fieldsOptional | entity

/-- The name of an operation. -/
def Operation.name : Operation → String
  | .add => "Add"
  | .drop => "Drop"
  | .toRecord => "ToRecord"
  | .toTable => "ToTable"
  | .fieldsOptional => "WithFieldsOptional"
  | .entity => "WithEntity"

/-- Why an operation could not be carried out. -/
inductive Fault where
  /-- No type of the kind goes without further parts. -/
  | notPlain (kind : Kind)
  /-- The kind is no kind of eager aggregates. -/
  | notEager (kind : Kind)
  /-- The kind has no such operation. -/
  | unsupported (operation : Operation) (kind : Kind)
  /-- An audited type is not valid. -/
  | invalid (violation : Violation)
  /-- An enum value is no literal. -/
  | badLiteral
  /-- A text that had to be a type is none. -/
  | badText (error : Spec.ParseError)
  /-- The host describes a field of an entity by a text that is no type. -/
  | badEntity (error : Spec.ParseError)
  /-- A lazy type without provider was asked for its fields. -/
  | noProvider
  /-- The kind has no letter. -/
  | noLetter (kind : Kind)
  /-- A lazy type without provider expands to itself for ever. -/
  | endless

/-- The wording of a fault. -/
def Fault.message : Fault → Bytes
  | .notPlain kind => Bytes.ofString s!"types: no payload-free node for kind {kind.name}"
  | .notEager kind => Bytes.ofString s!"types: AggregateOf {kind.name}"
  | .unsupported operation kind => Bytes.ofString s!"types: {operation.name} on {kind.name}"
  | .invalid violation => Bytes.ofString s!"types: invalid node: {violation.text}"
  | .badLiteral => Bytes.ofString "types: invalid enum literal"
  | .badText error => Bytes.ofString "types: MustParse: " ++ error.message
  | .badEntity error => error.message
  | .noProvider => Bytes.ofString "runtime error: invalid memory address or nil pointer dereference"
  | .noLetter kind => Bytes.ofString s!"runtime error: index out of range [{kind.index}] with length 39"
  | .endless => Bytes.ofString "stack overflow"

end FormulaTypes
