import FormulaTypes.Checker.Acceptance

/-!
# Coercion

Whether a value of a source type can be converted to a destination type, whether the conversion is safe, and what type
the value has afterwards. A record becomes a table of one row only at the top and only on request.
-/

namespace FormulaTypes

/-- What a coercion may do. -/
structure CoercionFlags where
  /-- A record may become a table of one row. -/
  aggregate : Bool
  /-- The coercion is the outermost one; only there a record becomes a table. -/
  top : Bool
  deriving DecidableEq

/-- The flags for the fields of an aggregate. -/
def CoercionFlags.nested (f : CoercionFlags) : CoercionFlags := { f with top := false }

/-- How a value is converted. -/
structure Coercion where
  /-- The conversion cannot fail at run time. -/
  safe : Bool
  /-- The type of the value afterwards. -/
  type : Ty

/-! ## Rules without fields -/

/-- Kinds that untyped data can be converted to, never safely. -/
def Kind.isUntypedTarget : Kind → Bool
  | .boolean | .number | .decimal | .currency | .string | .hyperlink | .guid | .date | .time | .dateTime
  | .dateTimeNoTimeZone => true
  | _ => false

/-- Kinds that have no text. -/
def Kind.isTextless : Kind → Bool
  | .color | .control | .dataEntity | .optionSet | .view | .polymorphic | .file | .largeImage | .metadata
  | .namedValue | .void => true
  | _ => false

/-- Whether a kind converts to another one, and if so whether safely. Conversions to text have their own rule. -/
def Kind.conversion? (dst src : Kind) : Option Bool :=
  match dst, src with
  | .number, .string | .decimal, .string | .currency, .string | .boolean, .string | .guid, .string => some false
  | .date, .string | .time, .string | .dateTime, .string | .dateTimeNoTimeZone, .string => some false
  | .number, .boolean | .number, .currency | .number, .decimal => some true
  | .decimal, .boolean | .decimal, .number | .decimal, .currency => some true
  | .currency, .boolean | .currency, .number | .currency, .decimal => some true
  | .boolean, .number | .boolean, .decimal | .boolean, .currency => some true
  | .image, .string | .image, .hyperlink | .image, .penImage | .image, .blob => some true
  | .hyperlink, .string | .hyperlink, .image | .hyperlink, .penImage | .hyperlink, .media
  | .hyperlink, .blob => some true
  | .media, .string | .media, .hyperlink | .media, .blob => some true
  | .blob, .string | .blob, .hyperlink | .blob, .image | .blob, .penImage | .blob, .media => some true
  | .penImage, .string | .penImage, .hyperlink | .penImage, .image => some true
  | dst, src =>
    if (dst = .number || dst = .decimal) && src.isDateTime then some true
    else if dst.isDateTime && (src.isNumeric || (src.isDateTime && src ≠ dst)) then some true
    else none

/-- Whether a type without fields converts to a kind, and if so whether safely. An option set value converts to the
kind behind it. -/
def leafConversion? (src : Ty) (dst : Kind) : Option Bool :=
  if src.kind = .optionSetValue ∧ Token.backingKind src.token ≠ .invalid ∧ Token.backingKind src.token = dst then
    some true
  else if dst = .string then
    if src.kind.isTextless then none else some true
  else dst.conversion? src.kind

/-! ## The walk -/

namespace Checker

/-- The source in the shape of the destination: itself, or the table of a record where that is allowed. -/
def reshape (c : Checker) (f : CoercionFlags) (src dst : Ty) : Run (Option Ty) :=
  if src.isTable = dst.isTable then pure (some src)
  else if dst.isTable && f.aggregate && f.top then do
    let table ← Run.lift (src.toTable c.audit none)
    pure (some table)
  else pure none

/-- The conversions of all fields that a destination asks for, `none` as soon as one is missing. -/
def coerceAlong : List (Bytes × Ty) → (Bytes → Ty → Run (Option (Option Coercion))) →
    Run (Option (List (Bytes × Coercion)))
  | [], _ => pure (some [])
  | (name, t) :: rest, look => do
    match ← look name t with
    | none => pure none
    | some found =>
      match ← coerceAlong rest look with
      | none => pure none
      | some more =>
        match found with
        | some r => pure (some ((name, r) :: more))
        | none => pure (some more)

/-- The aggregate that a coercion gives. -/
def coerced (c : Checker) (dst : Ty) (fields : List (Bytes × Coercion)) : Run Coercion := do
  let t ← Run.lift (Ty.ofKindFields c.audit dst.kind (fields.map fun e => (e.1, e.2.type)))
  let t ← if dst.optional then Run.lift (t.withOptional c.audit true) else pure t
  return ⟨fields.all fun e => e.2.safe, t⟩

mutual

/-- How a value of the source type is converted to the destination type, if it can be. -/
def coerce (c : Checker) (f : CoercionFlags) (src dst : Ty) : Run (Option Coercion) := do
  if src.kind = .error then return none
  if ← c.accepts dst src then return some ⟨true, dst⟩
  if src.kind = .namedValue ∨ dst.kind = .namedValue ∨ src.kind = .void ∨ dst.kind = .void ∨ dst.kind = .error then
    return none
  if src.kind = .objNull ∨ src.kind = .deferred then return some ⟨true, dst⟩
  if _restricted : src.kind = .enum then
    match _plain : Ty.ofKind src.superkind with
    | .error fault => Run.fail fault
    | .ok base => c.coerce f base dst
  else if src.kind = .untypedObject then
    return if dst.kind.isUntypedTarget then some ⟨false, dst⟩ else none
  else if dst.isAggregate then c.coerceAggregate f src dst
  else if src.isAggregate then return none
  else return (leafConversion? src dst.kind).map (⟨·, dst⟩)
termination_by (src.weight, 1)
decreasing_by
  · exact Prod.Lex.left _ _ (by rw [weight_ofKind _plain]; exact two_le_weight_enum _restricted)
  · exact Prod.Lex.right _ (by decide)

/-- How a value of the source type is converted to an aggregate, field by field. -/
def coerceAggregate (c : Checker) (f : CoercionFlags) (src dst : Ty) : Run (Option Coercion) := do
  if !src.isAggregate || (src.isLazy && dst.isLazy) then return none
  let some dst ← if dst.isLazy then dst.expand c.audit else pure (some dst) | return none
  let some shaped ← c.reshape f src dst | return none
  if (dst.kind = .file ∨ dst.kind = .largeImage) ∧ shaped.kind ≠ dst.kind then return none
  let some fields ← coerceAlong dst.fields (fun name expected => do
      Run.note (src.demand name)
      match _found : src.field? name with
      | some actual =>
        let r ← c.coerce f.nested actual expected
        return r.map some
      | none => return if dst.optional then some none else none)
    | return none
  return some (← c.coerced dst fields)
termination_by (src.weight, 0)
decreasing_by exact Prod.Lex.left _ _ (Ty.weight_lt_of_field? _found)

end

/-! ## Keeping what is not asked for -/

/-- The type that a value of the source type has to be given to satisfy the destination, if that can be done. Fields
that the destination does not ask for are kept; a source that is accepted stays as it is. -/
def coercionSubtype (c : Checker) (f : CoercionFlags) (src dst : Ty) : Run (Option Ty) := do
  if ← c.accepts dst src then return some src
  let some r ← c.coerce f src dst | return none
  if !src.isAggregate || !dst.isAggregate then return some r.type
  let some _ ← src.expand c.audit | return some r.type
  match _eager : src.expansion? with
  | none => return some r.type
  | some eager =>
    let some dst ← if dst.isLazy then dst.expand c.audit else pure (some dst) | return some r.type
    let some shaped ← c.reshape f eager dst | return some r.type
    let changed ← Run.collectAlong dst.fields fun name expected =>
      match _found : NameMap.find? eager.fields name with
      | some actual => c.coercionSubtype f.nested actual expected
      | none => pure none
    let t ← Run.lift (Ty.ofKindFields c.audit shaped.kind (NameMap.insertAll eager.fields changed))
    return some (t.withSourcesOf src)
termination_by src.weight
decreasing_by
  have := Ty.weight_lt_of_find?_fields _found
  have := Ty.weight_expansion? _eager
  omega

end Checker

end FormulaTypes
