import FormulaTypes.Literal
import FormulaTypes.NameSet
import FormulaTypes.Token

/-!
# Types

A type is a form, an optional token of the host, and the set of sources it came from. The form says what the type is:
a leaf, an enum with its literals, an option set or view with its choices, an aggregate with its fields, or an
aggregate whose fields a provider resolves on demand.

A resolver holds the type that it comes to, so types and what their providers resolve are built from below: the types
behind a provider are parts of its type, and no provider resolves to a type that it stands in, at whatever depth. Hosts
whose resolvers lead back to their own type are outside of this: a walk through such a type has no end. What a type
refers to by a token instead, such as an entity, is looked up in a directory and may well lead back to it.
-/

namespace FormulaTypes

/-! ## Providers -/

/-- How a provider comes to the type of one field. The type is there before the resolver is, so what providers resolve
is well-founded. -/
inductive Resolver (α : Type) where
  /-- The host computes it; it may find none. -/
  | host (result : Option α)
  /-- The field was bound to a type. -/
  | bound (type : α)

/-- What a resolver gives. -/
def Resolver.result? {α : Type} : Resolver α → Option α
  | .host result => result
  | .bound type => some type

/-- The fields of an aggregate, resolved on demand. -/
structure Provider (α : Type) where
  /-- What the provider describes; providers of one identity and the same names are of the same shape. -/
  identity : Bytes
  /-- Whether all fields may be resolved at once. -/
  expandable : Bool
  /-- The resolvers by field name. -/
  resolvers : List (Bytes × Resolver α)
  /-- Where the resolved types are remembered, if they are. -/
  cell : Option Nat

namespace Provider

variable {α : Type}

/-- A provider without fields. -/
def empty (identity : Bytes) (expandable : Bool) : Provider α := ⟨identity, expandable, [], none⟩

/-- The field names, in order. -/
def names (p : Provider α) : List Bytes := NameMap.names p.resolvers

/-- Whether there is a resolver for a name. -/
def has (p : Provider α) (name : Bytes) : Bool := NameMap.contains p.resolvers name

/-- The type of a field. -/
def get? (p : Provider α) (name : Bytes) : Option α := (NameMap.find? p.resolvers name).bind Resolver.result?

/-- A new provider that also resolves `name`. -/
def bind (p : Provider α) (name : Bytes) (r : Resolver α) : Provider α :=
  { p with resolvers := NameMap.insert p.resolvers name r, cell := none }

/-- A new provider that no longer resolves `name`; the same one if it never did. -/
def unbind (p : Provider α) (name : Bytes) : Provider α :=
  if p.has name then { p with resolvers := NameMap.erase p.resolvers name, cell := none } else p

/-- The fields that resolve, with their types. -/
def fields (p : Provider α) : NameMap α := p.resolvers.filterMap fun e => e.2.result?.map (e.1, ·)

/-- All fields at once, if that is allowed. -/
def expand? (p : Provider α) : Option (NameMap α) := if p.expandable then some p.fields else none

/-- The same identity and the same names. -/
def sameShape (p q : Provider α) : Bool := p.identity = q.identity && p.names = q.names

end Provider

/-! ## Forms and types -/

/-- The shapes of aggregates. -/
inductive Shape where
  | record | table | file | largeImage
  deriving DecidableEq

/-- The kind of an aggregate of a shape. -/
def Shape.kind : Shape → Kind
  | .record => .record
  | .table => .table
  | .file => .file
  | .largeImage => .largeImage

/-- The two opaque forms that carry choices. -/
inductive Choice where
  | optionSet | view
  deriving DecidableEq

/-- The kind of a form with choices. -/
def Choice.kind : Choice → Kind
  | .optionSet => .optionSet
  | .view => .view

/-- What a type is, over the types of its fields. -/
inductive Form (α : Type) where
  /-- A kind that carries nothing but perhaps a token. -/
  | leaf (kind : Kind) (isLeaf : kind.isLeaf = true)
  /-- Named literals of a kind. -/
  | enum (superkind : Kind) (values : Values)
  /-- An option set or a view with its choices. -/
  | choices (choice : Choice) (fields : List (Bytes × α))
  /-- An aggregate; optional fields may be missing from a source. -/
  | aggregate (shape : Shape) (optional : Bool) (fields : List (Bytes × α))
  /-- A record or table whose fields are resolved on demand. -/
  | lazy (isTable : Bool) (optional : Bool) (provider : Option (Provider α))

/-- The kind of a form. -/
def Form.kind {α : Type} : Form α → Kind
  | .leaf kind _ => kind
  | .enum _ _ => .enum
  | .choices choice _ => choice.kind
  | .aggregate shape _ _ => shape.kind
  | .lazy false _ _ => .lazyRecord
  | .lazy true _ _ => .lazyTable

/-- A type of the formula language. It is larger than the types of its fields, resolved or not. -/
inductive Ty where
  | node (form : Form Ty) (token : Option Token) (sources : NameSet)

namespace Ty

/-- What the type is. -/
def form : Ty → Form Ty
  | .node form _ _ => form

/-- The token of the host. -/
def token : Ty → Option Token
  | .node _ token _ => token

/-- Where the type came from. -/
def sources : Ty → NameSet
  | .node _ _ sources => sources

/-- The kind. -/
def kind (t : Ty) : Kind := t.form.kind

/-- The field map; that of a lazy type is empty. -/
def fields (t : Ty) : NameMap Ty :=
  match t.form with
  | .choices _ fields | .aggregate _ _ fields => fields
  | .leaf _ _ | .enum _ _ | .lazy _ _ _ => []

/-- The named literals of an enum. -/
def values (t : Ty) : Values :=
  match t.form with
  | .enum _ values => values
  | _ => .empty

/-- The kind of an enum's literals, `invalid` for other types. -/
def superkind (t : Ty) : Kind :=
  match t.form with
  | .enum superkind _ => superkind
  | _ => .invalid

/-- Whether fields may be missing from a source. -/
def optional (t : Ty) : Bool :=
  match t.form with
  | .aggregate _ optional _ | .lazy _ optional _ => optional
  | _ => false

/-- The provider of a lazy type. -/
def provider? (t : Ty) : Option (Provider Ty) :=
  match t.form with
  | .lazy _ _ provider => provider
  | _ => none

/-! ## Views -/

/-- Records and tables. -/
def isAggregate (t : Ty) : Bool := t.kind.isAggregate

/-- Aggregates with fields resolved on demand. -/
def isLazy (t : Ty) : Bool := t.kind.isLazy

/-- Aggregates with their fields at hand. -/
def isEager (t : Ty) : Bool := t.kind.isAggregate && !t.kind.isLazy

/-- Tables, eager or lazy. -/
def isTable (t : Ty) : Bool := t.kind = .table || t.kind = .lazyTable

/-- Records, eager or lazy, files and large images. -/
def isRecord (t : Ty) : Bool :=
  t.kind = .record || t.kind = .lazyRecord || t.kind = .file || t.kind = .largeImage

/-- The type of a field. -/
def field? (t : Ty) (name : Bytes) : Option Ty :=
  match t.provider? with
  | some p => p.get? name
  | none => NameMap.find? t.fields name

/-- The names of the fields. -/
def fieldNames (t : Ty) : List Bytes :=
  match t.provider? with
  | some p => p.names
  | none => NameMap.names t.fields

/-- The column of a multiple selection. -/
def selectionColumn : Bytes := Bytes.ofString "Value"

/-- The column of a table that holds a multiple selection of option set values. -/
def selection? (t : Ty) : Option Ty :=
  match t.form with
  | .aggregate .table _ [(name, column)] =>
    if name = selectionColumn ∧ column.kind = .optionSetValue then some column else none
  | _ => none

/-! ## Replacing parts -/

/-- The type with another token. -/
def withToken : Ty → Option Token → Ty
  | .node form _ sources, token => .node form token sources

/-- The type with further sources. -/
def withSources : Ty → List Bytes → Ty
  | .node form token sources, more => .node form token (sources.insertAll more)

/-- The type with the sources of another one as well. -/
def withSourcesOf (t u : Ty) : Ty := t.withSources u.sources.members

/-- A type of some form, without token and sources. -/
def ofForm (form : Form Ty) : Ty := .node form none ∅

end Ty

end FormulaTypes
