import FormulaTypes.Checker.Basic
import FormulaTypes.FieldPath

/-!
# Acceptance

Whether a value of a source type may be used where a destination type is expected. The answer is the first mismatch,
if there is one: the innermost pair of types that do not fit, and the path of fields to it.
-/

namespace FormulaTypes

/-- Where a source does not fit its destination. -/
structure Mismatch where
  path : FieldPath
  expected : Ty
  /-- What the source has there, if anything. -/
  actual : Option Ty

/-- The mismatch seen from the type that has it in a field. -/
def Mismatch.under (m : Mismatch) (name : Bytes) : Mismatch := { m with path := name :: m.path }

/-! ## Rules without fields -/

/-- Plain kinds that accept another kind. -/
def Kind.widens : Kind → Kind → Bool
  | .string, .hyperlink | .string, .image | .string, .penImage | .string, .media | .string, .blob
  | .string, .guid => true
  | .hyperlink, .image | .hyperlink, .penImage | .hyperlink, .media | .hyperlink, .blob => true
  | .image, .penImage | .image, .blob => true
  | .media, .blob => true
  | .number, .currency => true
  | _, _ => false

/-- Acceptance between kinds that carry nothing. -/
def Rules.kindAccepts (r : Rules) (dst src : Kind) : Bool :=
  dst = src || (dst = .number && src.isDateTime && r.legacyDateTime) || (!r.v1 && dst.widens src)

/-- Every literal of the source is in the destination, or missing there if the rules are not exact. -/
def Rules.eachValueAccepted (r : Rules) (dst src : Values) : Bool :=
  src.entries.all fun e =>
    match dst.find? e.1 with
    | some value => value.same e.2
    | none => !r.exact

/-- Acceptance between named literals; with `short`, literals that are equal as a whole are not looked into. -/
def Rules.valuesBy (r : Rules) (short : Bool) (dst src : Values) : Bool :=
  (short && dst.equal src) || r.eachValueAccepted dst src

/-- Acceptance between named literals. -/
def Rules.valuesAccept (r : Rules) (dst src : Values) : Bool := r.valuesBy true dst src

/-- Both records or both tables, one of them lazy. -/
def Kind.sameShape : Kind → Kind → Bool
  | .record, .lazyRecord | .table, .lazyTable => true
  | _, _ => false

/-! ## The walk -/

namespace Checker

/-- The types fit. -/
def accept : Run (Option Mismatch) := pure none

/-- The types do not fit. -/
def reject (dst src : Ty) : Run (Option Mismatch) := pure (some ⟨[], dst, some src⟩)

/-- The types fit if a test says so. -/
def acceptIf (test : Bool) (dst src : Ty) : Run (Option Mismatch) := if test then accept else reject dst src

/-- The shapes of two lazy types agree. A lazy type without provider has no shape to compare. -/
def sameLazyShape : Option (Provider Ty) → Option (Provider Ty) → Run Bool
  | none, none => pure true
  | some p, some q => pure (p.sameShape q)
  | _, _ => Run.fail .noProvider

/-- Acceptance by types without fields of their own, entities aside. -/
def leafAccepts (c : Checker) (dst src : Ty) : Bool :=
  if dst.kind = .polymorphic then src.kind = .polymorphic || src.kind = .record
  else if dst.kind.isOpaque then src.kind = dst.kind && Token.compatible dst.token src.token
  else c.rules.kindAccepts dst.kind src.kind

theorem weight_ofKind {k : Kind} {t : Ty} (h : Ty.ofKind k = .ok t) : t.weight = 1 := by
  cases k <;> simp [Ty.ofKind, Ty.plainForm?, Kind.isLeaf, Kind.isValid] at h <;> subst h <;>
    simp [Ty.weight_eq, Ty.ownWeight, Ty.parts, Form.parts, Ty.form, Ty.ofForm]

theorem two_le_weight_enum {t : Ty} (h : t.kind = .enum) : 2 ≤ t.weight := by
  obtain ⟨form, token, sources⟩ := t
  cases form with
  | leaf kind hk => simp only [Ty.kind, Form.kind, Ty.form] at h; subst h; simp [Kind.isLeaf] at hk
  | enum => simp [Ty.weight_eq, Ty.ownWeight, Ty.form]
  | choices choice => cases choice <;> simp [Ty.kind, Form.kind, Ty.form, Choice.kind] at h
  | aggregate shape => cases shape <;> simp [Ty.kind, Form.kind, Ty.form, Shape.kind] at h
  | lazy isTable => cases isTable <;> simp [Ty.kind, Form.kind, Ty.form] at h

/-- The base of an enum is lighter than the enum. -/
theorem weight_ofKind_lt {src : Ty} (h : src.kind = .enum) {k : Kind} {base : Ty} (hbase : Ty.ofKind k = .ok base) :
    base.weight < src.weight := by
  rw [weight_ofKind hbase]
  exact two_le_weight_enum h

/-- A way to compare destinations with types that are lighter than a source. -/
abbrev Deeper (src : Ty) := (expected actual : Ty) → actual.weight < src.weight → Run (Option Mismatch)

section Body

/-! The rules, over a way `deeper` to go on inside the source. With `short`, maps that are equal as a whole are not
looked into. -/

variable (c : Checker) (short : Bool) (dst src : Ty) (deeper : Deeper src)

/-- The mismatch at one field of a destination. Fields of the kind `error` accept everything and are not looked at. -/
def fieldBy (name : Bytes) (expected : Ty) : Run (Option Mismatch) :=
  if expected.kind = .error then accept
  else do
    Run.note (src.demand name)
    match found : src.field? name with
    | some actual => do
      let m ← deeper expected actual (Ty.weight_lt_of_field? found)
      pure (m.map (·.under name))
    | none =>
      if c.rules.exact && !dst.optional then pure (some ⟨[name], expected, none⟩) else accept

/-- The first mismatch along the fields of a destination. -/
def fieldsBy : Run (Option Mismatch) :=
  if short && (!src.isLazy && fieldsEqual dst.fields src.fields) then accept
  else Run.firstAlong dst.fields (c.fieldBy dst src deeper)

/-- The first mismatch with an eager aggregate. -/
def aggregateBy : Run (Option Mismatch) :=
  if src.isLazy then
    if dst.kind.sameShape src.kind then c.fieldsBy short dst src deeper else reject dst src
  else if src.kind = .optionSetValue ∧ (dst.selection?.any fun column => Token.compatible column.token src.token) then
    accept
  else if dst.kind = src.kind then c.fieldsBy short dst src deeper
  else reject dst src

/-- The first mismatch with a lazy type: a lazy source has to be of its shape, an eager one is compared with its
expansion. -/
def lazyBy : Run (Option Mismatch) := do
  if src.isLazy then
    if src.kind = dst.kind then acceptIf (← sameLazyShape dst.provider? src.provider?) dst src else reject dst src
  else if src.kind.sameShape dst.kind then
    match ← dst.expand c.audit with
    | some expanded => c.fieldsBy short expanded src deeper
    | none => reject dst src
  else reject dst src

/-- The first mismatch of an eager aggregate with the table or the record that an entity stands for. -/
def entityBy : Run (Option Mismatch) := do
  match ← Run.lift (dst.expandEntity c.audit c.entities) with
  | some table =>
    let expanded ← if src.isTable then pure table else Run.lift (table.toRecord c.audit none)
    c.aggregateBy short expanded src deeper
  | none => reject dst src

/-- The first mismatch of a source with its destination, where `enter` compares an entity with an eager aggregate. -/
def checkBy (enter : Ty → Run (Option Mismatch)) : Run (Option Mismatch) :=
  if dst.kind = .void ∨ src.kind = .void then reject dst src
  else if src.kind = .objNull ∨ dst.kind = .error ∨ src.kind = .unknown then accept
  else if src.kind = .deferred then acceptIf (dst.kind ≠ .unknown) dst src
  else if restricted : src.kind = .enum ∧ dst.kind ≠ .enum then
    -- An enum is a restricted version of the kind of its literals.
    match plain : Ty.ofKind src.superkind with
    | .error fault => Run.fail fault
    | .ok base => do acceptIf (← deeper dst base (weight_ofKind_lt restricted.1 plain)).isNone dst src
  else
    match dst.form with
    | .aggregate _ _ _ => c.aggregateBy short dst src deeper
    | .lazy _ _ _ => c.lazyBy short dst src deeper
    | .enum superkind values =>
      acceptIf (src.kind = .enum && superkind = src.superkind && c.rules.valuesBy short values src.values) dst src
    | .leaf .dataEntity _ =>
      if src.kind = .dataEntity && Token.compatible dst.token src.token then accept
      else if src.isEager then enter dst
      else reject dst src
    | .leaf _ _ | .choices _ _ => acceptIf (c.leafAccepts dst src) dst src

end Body

/-- The first mismatch of a source with its destination. -/
def check (c : Checker) (dst src : Ty) : Run (Option Mismatch) :=
  c.checkBy true dst src (fun expected actual _lighter => c.check expected actual)
    (fun entity => c.entityBy true entity src fun expected actual _lighter => c.check expected actual)
termination_by src.weight
decreasing_by
  · exact _lighter
  · exact _lighter

section Parts

variable (c : Checker) (dst src : Ty)

/-- The mismatch at one field of a destination. -/
def checkField (name : Bytes) (expected : Ty) : Run (Option Mismatch) :=
  c.fieldBy dst src (fun expected actual _ => c.check expected actual) name expected

/-- The first mismatch along the fields of a destination. -/
def checkFields : Run (Option Mismatch) := c.fieldsBy true dst src fun expected actual _ => c.check expected actual

/-- The first mismatch with an eager aggregate. -/
def checkAggregate : Run (Option Mismatch) :=
  c.aggregateBy true dst src fun expected actual _ => c.check expected actual

/-- The first mismatch with a lazy type. -/
def checkLazy : Run (Option Mismatch) := c.lazyBy true dst src fun expected actual _ => c.check expected actual

/-- The first mismatch of an eager aggregate with what an entity stands for. -/
def checkEntity : Run (Option Mismatch) := c.entityBy true dst src fun expected actual _ => c.check expected actual

end Parts

/-- Whether a value of the source type may be used where the destination type is expected. -/
def accepts (c : Checker) (dst src : Ty) : Run Bool := do
  let mismatch ← c.check dst src
  return mismatch.isNone

end Checker

end FormulaTypes
