import FormulaTypes.Fault

/-!
# Building types

New types are audited if the caller asks for it: then a type that is not valid is a fault.
-/

namespace FormulaTypes

namespace Ty

/-- A new type, refused if it is audited and not valid. -/
def audited (audit : Bool) (t : Ty) : Except Fault Ty :=
  match audit, t.violation? with
  | true, some violation => .error (.invalid violation)
  | _, _ => .ok t

/-- The form of a kind that goes without further parts. -/
def plainForm? (k : Kind) : Option (Form Ty) :=
  if h : k.isLeaf = true then
    if k.isValid then some (.leaf k h) else none
  else
    match k with
    | .record => some (.aggregate .record false [])
    | .table => some (.aggregate .table false [])
    | .file => some (.aggregate .file false [])
    | .largeImage => some (.aggregate .largeImage false [])
    | .optionSet => some (.choices .optionSet [])
    | .view => some (.choices .view [])
    | _ => none

/-- The type of a kind without further parts. Enums and lazy types have none. -/
def ofKind (k : Kind) : Except Fault Ty :=
  match plainForm? k with
  | some form => .ok (ofForm form)
  | none => .error (.notPlain k)

/-- The type of all and nothing, at the top of the hierarchy. -/
def error : Ty := ofForm (.leaf .error rfl)

/-- An eager aggregate. -/
def ofFields (audit : Bool) (shape : Shape) (fields : NameMap Ty) : Except Fault Ty :=
  (ofForm (.aggregate shape false fields)).audited audit

/-- An eager aggregate of a kind. -/
def ofKindFields (audit : Bool) (k : Kind) (fields : NameMap Ty) : Except Fault Ty :=
  match k with
  | .record => ofFields audit .record fields
  | .table => ofFields audit .table fields
  | .file => ofFields audit .file fields
  | .largeImage => ofFields audit .largeImage fields
  | k => .error (.notEager k)

/-- An enum. -/
def ofValues (audit : Bool) (superkind : Kind) (values : Values) : Except Fault Ty :=
  (ofForm (.enum superkind values)).audited audit

/-- A record or table whose fields a provider resolves. -/
def ofProvider (audit : Bool) (isTable : Bool) (p : Provider Ty) : Except Fault Ty :=
  (ofForm (.lazy isTable false (some p))).audited audit

/-- The form of a kind that is given nothing but a token. -/
def bareForm (k : Kind) : Form Ty :=
  if h : k.isLeaf = true then .leaf k h
  else
    match k with
    | .record => .aggregate .record false []
    | .table => .aggregate .table false []
    | .file => .aggregate .file false []
    | .largeImage => .aggregate .largeImage false []
    | .lazyRecord => .lazy false false none
    | .lazyTable => .lazy true false none
    | .optionSet => .choices .optionSet []
    | .view => .choices .view []
    | _ => .enum .invalid .empty

/-- A type with nothing but a token, if one is given. -/
def ofToken (audit : Bool) (k : Kind) : Option Token → Except Fault Ty
  | none => ofKind k
  | some token => (Ty.node (bareForm k) (some token) ∅).audited audit

/-- An option set or a view. -/
def ofChoices (audit : Bool) (choice : Choice) (token : Option Token) (fields : NameMap Ty) : Except Fault Ty :=
  (Ty.node (.choices choice fields) token ∅).audited audit

/-- A table with one column of option set values. -/
def ofSelection (audit : Bool) (token : Option Token) : Except Fault Ty := do
  let column ← ofToken audit .optionSetValue token
  ofFields audit .table [(selectionColumn, column)]

end Ty

/-- The literals of offered values: of two for one name the later wins. -/
def Values.ofOffers (offers : List (Bytes × Offer)) : Except Fault Values := do
  let entries ← offers.mapM fun e =>
    match e.2.literal? with
    | some literal => .ok (e.1, literal)
    | none => .error .badLiteral
  return .ofList entries

end FormulaTypes
