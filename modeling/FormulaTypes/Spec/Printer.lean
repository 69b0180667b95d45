import FormulaTypes.Number.Shortest
import FormulaTypes.Ty.Build

/-!
# Writing type texts

Every type has a text, but the text does not tell tokens, optional fields, providers, the choices of option sets and
views, or literals that do not fit their kind. Types with one of these are lossy and have no text that reads back.
-/

namespace FormulaTypes.Spec

/-- The name has to stand in quotes. -/
def needsQuotes (name : Bytes) : Bool := name.isEmpty || name.any fun c => !isPlain c

/-- A name with its single quotes doubled. -/
def doubleQuotes (name : Bytes) : Bytes := name.flatMap fun c => if c = 39 then [39, 39] else [c]

/-- The text of a name. -/
def nameText (name : Bytes) : Bytes := if needsQuotes name then 39 :: doubleQuotes name ++ [39] else name

/-- The text of a literal. -/
def literalText : Literal → Bytes
  | .number value => value.text
  | .flag value => Bytes.ofString (if value then "true" else "false")
  | .text value => nameText value

/-- The literal is one that the reader would read for the kind. -/
def literalFits (kind : Kind) : Literal → Bool
  | .number _ => kind.isNumeric
  | .flag _ => kind = .boolean
  | .text _ => !kind.isNumeric && kind ≠ .boolean

/-- The text of entries, with a comma and a space between them. -/
def valuesText : NameMap Literal → Bytes
  | [] => []
  | [(name, value)] => nameText name ++ 58 :: literalText value
  | (name, value) :: rest => nameText name ++ 58 :: literalText value ++ 44 :: 32 :: valuesText rest

mutual

/-- The text of a type. -/
def typeText : Ty → Bytes
  | .node (.leaf kind _) _ _ => [kind.letter]
  | .node (.enum superkind values) _ _ => 37 :: superkind.letter :: 91 :: valuesText values.entries ++ [93]
  | .node (.choices choice fields) _ _ =>
    match fields with
    | [] => [choice.kind.letter]
    | _ :: _ => choice.kind.letter :: 91 :: fieldsText fields ++ [93]
  | .node (.aggregate shape _ fields) _ _ =>
    match shape, fields with
    | .file, [] | .largeImage, [] => [shape.kind.letter]
    | _, _ => shape.kind.letter :: 91 :: fieldsText fields ++ [93]
  | .node (.lazy isTable _ _) _ _ => [if isTable then Kind.lazyTable.letter else Kind.lazyRecord.letter]

/-- The text of fields, with a comma and a space between them. -/
def fieldsText : List (Bytes × Ty) → Bytes
  | [] => []
  | (name, t) :: rest =>
    match rest with
    | [] => nameText name ++ 58 :: typeText t
    | _ :: _ => nameText name ++ 58 :: typeText t ++ 44 :: 32 :: fieldsText rest

end

mutual

/-- The text does not tell all of the type. -/
def isLossy : Ty → Bool
  | .node (.leaf _ _) token _ => token.isSome
  | .node (.enum superkind values) token _ => token.isSome || values.entries.any fun e => !literalFits superkind e.2
  | .node (.choices _ fields) token _ => token.isSome || !fields.isEmpty
  | .node (.aggregate _ optional fields) token _ => token.isSome || optional || anyLossy fields
  | .node (.lazy _ optional provider) token _ => token.isSome || optional || provider.isSome

/-- Some field is lossy. -/
def anyLossy : List (Bytes × Ty) → Bool
  | [] => false
  | (_, t) :: rest => isLossy t || anyLossy rest

end

/-- A type without a text that reads back, known by the text it has. -/
structure Unrepresentable where
  text : Bytes

/-- The wording. -/
def Unrepresentable.message (e : Unrepresentable) : Bytes :=
  Bytes.ofString "format " ++ e.text ++ Bytes.ofString ": type has no textual representation"

/-- The text of a type, if it reads back. -/
def format (t : Ty) : Except Unrepresentable Bytes :=
  if isLossy t then .error ⟨typeText t⟩ else .ok (typeText t)

/-! ## Kinds past the table -/

/-- The kind, if it is past the table. -/
def pastTable? : Kind → Option Kind
  | .beyond excess => some (.beyond excess)
  | _ => none

mutual

/-- The first kind past the table that the text would need a letter for. -/
def unlettered? : Ty → Option Kind
  | .node (.leaf kind _) _ _ => pastTable? kind
  | .node (.enum superkind _) _ _ => pastTable? superkind
  | .node (.choices _ fields) _ _ | .node (.aggregate _ _ fields) _ _ => anyUnlettered? fields
  | .node (.lazy _ _ _) _ _ => none

/-- The first such kind in some fields. -/
def anyUnlettered? : List (Bytes × Ty) → Option Kind
  | [] => none
  | (_, t) :: rest => (unlettered? t).or (anyUnlettered? rest)

end

/-- A type whose text can be written at all. -/
def printable (t : Ty) : Except Fault Ty :=
  match unlettered? t with
  | some kind => .error (.noLetter kind)
  | none => .ok t

end FormulaTypes.Spec
