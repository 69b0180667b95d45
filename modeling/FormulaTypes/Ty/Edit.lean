import FormulaTypes.Run
import FormulaTypes.Ty.Build
import FormulaTypes.Ty.Order

/-!
# Editing types

Edits make a new type from an old one. An edit that the kind does not have is a fault, and so is a result that is
audited and not valid. Edits of a lazy type go to its provider and resolve nothing.
-/

namespace FormulaTypes

namespace Ty

/-- Binds a field. -/
def add (audit : Bool) (t : Ty) (name : Bytes) (field : Ty) : Except Fault Ty :=
  match t with
  | .node (.lazy isTable optional (some p)) token sources =>
    (Ty.node (.lazy isTable optional (some (p.bind name (.bound field)))) token sources).audited audit
  | .node (.choices choice fields) token sources =>
    (Ty.node (.choices choice (NameMap.insert fields name field)) token sources).audited audit
  | .node (.aggregate shape optional fields) token sources =>
    (Ty.node (.aggregate shape optional (NameMap.insert fields name field)) token sources).audited audit
  | t => .error (.unsupported .add t.kind)

/-- Removes a field. -/
def drop (audit : Bool) (t : Ty) (name : Bytes) : Except Fault Ty :=
  match t with
  | .node (.lazy isTable optional (some p)) token sources =>
    (Ty.node (.lazy isTable optional (some (p.unbind name))) token sources).audited audit
  | .node (.choices choice fields) token sources =>
    (Ty.node (.choices choice (NameMap.erase fields name)) token sources).audited audit
  | .node (.aggregate shape optional fields) token sources =>
    (Ty.node (.aggregate shape optional (NameMap.erase fields name)) token sources).audited audit
  | t => .error (.unsupported .drop t.kind)

/-- The type with a token in place of its own, if one is given. -/
def replaceToken (t : Ty) : Option Token → Ty
  | none => t
  | some token => t.withToken (some token)

/-- The record of an aggregate. A lazy type keeps its provider; nothing becomes the empty record. -/
def toRecord (audit : Bool) (t : Ty) (entity : Option Token) : Except Fault Ty :=
  match t with
  | .node (.aggregate .table optional fields) token sources =>
    ((Ty.node (.aggregate .record optional fields) token sources).replaceToken entity).audited audit
  | .node (.aggregate shape optional fields) token sources =>
    ((Ty.node (.aggregate shape optional fields) token sources).replaceToken entity).audited audit
  | .node (.lazy _ optional provider) token sources =>
    ((Ty.node (.lazy false optional provider) token sources).replaceToken entity).audited audit
  | t =>
    if t.kind = .objNull then ((ofForm (.aggregate .record false [])).replaceToken entity).audited audit
    else .error (.unsupported .toRecord t.kind)

/-- The table of an aggregate. A lazy type keeps its provider; nothing becomes the empty table. -/
def toTable (audit : Bool) (t : Ty) (entity : Option Token) : Except Fault Ty :=
  match t with
  | .node (.aggregate _ optional fields) token sources =>
    ((Ty.node (.aggregate .table optional fields) token sources).replaceToken entity).audited audit
  | .node (.lazy _ optional provider) token sources =>
    ((Ty.node (.lazy true optional provider) token sources).replaceToken entity).audited audit
  | t =>
    if t.kind = .objNull then ((ofForm (.aggregate .table false [])).replaceToken entity).audited audit
    else .error (.unsupported .toTable t.kind)

/-- Says whether the fields of an aggregate may be missing from a source. -/
def withOptional (audit : Bool) (t : Ty) (optional : Bool) : Except Fault Ty :=
  match t with
  | .node (.aggregate shape old fields) token sources =>
    if old = optional then .ok t else (Ty.node (.aggregate shape optional fields) token sources).audited audit
  | .node (.lazy isTable old provider) token sources =>
    if old = optional then .ok t else (Ty.node (.lazy isTable optional provider) token sources).audited audit
  | t => .error (.unsupported .fieldsOptional t.kind)

/-- Names the entity that an aggregate was expanded from. -/
def withEntity (audit : Bool) (t : Ty) (entity : Option Token) : Except Fault Ty :=
  if t.isAggregate then (t.withToken entity).audited audit else .error (.unsupported .entity t.kind)

/-! ## Expansion -/

/-- The eager aggregate that a lazy type stands for, if it may be expanded; other types stand for themselves. -/
def expansion? (t : Ty) : Option Ty :=
  match t with
  | .node (.lazy isTable optional (some p)) token sources =>
    p.expand?.map fun fields => .node (.aggregate (if isTable then .table else .record) optional fields) token sources
  | t => some t

/-- Expands a lazy type. -/
def expand (audit : Bool) (t : Ty) : Run (Option Ty) := do
  Run.note t.expansionDemands
  match t.provider?, t.expansion? with
  | none, _ => pure (some t)
  | some _, none => pure none
  | some _, some expanded =>
    let expanded ← Run.lift (expanded.audited audit)
    pure (some expanded)

/-- An expansion weighs no more than the type, and less if a provider was asked. -/
theorem weight_expansion? {t expanded : Ty} (h : t.expansion? = some expanded) :
    expanded.weight + (if t.provider?.isSome then 1 else 0) ≤ t.weight := by
  obtain ⟨form, token, sources⟩ := t
  cases form with
  | lazy isTable optional provider =>
    cases provider with
    | some p =>
      simp only [expansion?, Provider.expand?, Option.map_eq_some_iff] at h
      obtain ⟨fields, hf, rfl⟩ := h
      split at hf
      · cases hf
        simp only [weight_eq, ownWeight, form, parts, Form.parts, provider?, Option.isSome_some, if_true]
        omega
      · cases hf
    | none => cases h; simp [provider?, Ty.form]
  | leaf | enum | choices | aggregate => cases h; simp [provider?, Ty.form]

/-- A type that a provider stands behind. -/
def hasProvider (t : Ty) : Bool := t.provider?.isSome

/-- Two expansions weigh less than the types, in one order and in the other, if a provider was asked. -/
theorem weight_expansions {a b ea eb : Ty} (ha : a.expansion? = some ea) (hb : b.expansion? = some eb)
    (h : a.hasProvider = true ∨ b.hasProvider = true) :
    Prod.Lex (· < ·) (· < ·) (eb.weight, ea.weight) (b.weight, a.weight) := by
  have wa := weight_expansion? ha
  have wb := weight_expansion? hb
  unfold hasProvider at h
  by_cases hp : b.provider?.isSome = true
  · exact Prod.Lex.left _ _ (by rw [if_pos hp] at wb; omega)
  · have hq : a.provider?.isSome = true := h.resolve_right hp
    rw [if_pos hq] at wa
    rcases Nat.lt_or_ge eb.weight b.weight with hlt | hge
    · exact Prod.Lex.left _ _ hlt
    · have : eb.weight = b.weight := by omega
      rw [this]
      exact Prod.Lex.right _ (by omega)

end Ty

/-! ## Entities -/

/-- What the host knows of an entity. -/
structure Entity where
  fields : NameMap Ty
  sources : List Bytes
  ordered : fields.Ordered
  inOrder : ∀ e ∈ fields, e.2.InOrder

/-- How the host looks up entities. It may know none of a token, or fail to build the one that it knows. -/
abbrev Directory := Token → Except Fault (Option Entity)

/-- The table that a data entity stands for. -/
def Ty.expandEntity (audit : Bool) (entities : Option Directory) (t : Ty) : Except Fault (Option Ty) :=
  match t.kind, t.token, entities with
  | .dataEntity, some token, some look => do
    match ← look token with
    | some entity =>
      let table ← (Ty.node (.aggregate .table false entity.fields) (some token) t.sources).audited audit
      return some (table.withSources entity.sources)
    | none => return none
  | _, _, _ => .ok none

end FormulaTypes
