import FormulaTypes.Checker.Acceptance

/-!
# Supertypes

The nearest type that accepts two given types. Aggregates of one kind keep the fields they share, each with its own
supertype, and lose those that have none but `error`. Other types meet at the nearest common superkind.
-/

namespace FormulaTypes

/-- The kind from which a type climbs the hierarchy; an enum climbs from the kind of its literals. -/
def Ty.chainKind (t : Ty) : Kind := if t.kind = .enum then t.superkind else t.kind

/-- Which of two types that accept each other stands for both does not depend on their order: the eager one, then the
one without token, then the one of the lower kind, then the one of the lower digest. -/
def Ty.standsFirst (a b : Ty) : Bool :=
  if a.isLazy ≠ b.isLazy then b.isLazy
  else if a.token.isNone ≠ b.token.isNone then a.token.isNone
  else if a.kind ≠ b.kind then a.kind.index ≤ b.kind.index
  else !(b.digest < a.digest)

namespace Checker

/-- The type for two types that accept each other. Opaque types of one kind lose their tokens. -/
def mutualBound (a b : Ty) : Run Ty :=
  if a.isLazy = b.isLazy ∧ a.kind = b.kind ∧ a.kind.isOpaque then do
    let t ← Run.lift (Ty.ofKind a.kind)
    pure ((t.withSourcesOf a).withSourcesOf b)
  else if a.standsFirst b then pure (a.withSourcesOf b)
  else pure (b.withSourcesOf a)

/-- The aggregate of two aggregates with some fields: of the kind of the first, optional if either is, with the token
they share and the sources of both. -/
def aggregateLike (c : Checker) (a b : Ty) (fields : NameMap Ty) : Run Ty := do
  let t ← Run.lift (Ty.ofKindFields c.audit a.kind fields)
  let t ← if a.optional || b.optional then Run.lift (t.withOptional c.audit true) else pure t
  let t ← if a.token.isSome && Token.same a.token b.token then Run.lift (t.withEntity c.audit a.token) else pure t
  return (t.withSourcesOf a).withSourcesOf b

/-- Runs an expansion of both types, if they are aggregates of the same shape; tells whether both may be expanded. -/
def expandBoth (c : Checker) (a b : Ty) : Run Bool := do
  if !a.isAggregate || !b.isAggregate || a.isTable ≠ b.isTable then return false
  let some _ ← a.expand c.audit | return false
  let some _ ← b.expand c.audit | return false
  return true

/-- Where the hierarchy joins two types that have no fields to compare. -/
def joinKinds (a b : Ty) : Run Ty := do
  let k := a.chainKind.join b.chainKind
  if k.isAggregate ∨ k = .enum ∨ (k.isOpaque ∧ ¬ (a.kind = k ∧ b.kind = k)) then return Ty.error
  let t ← Run.lift (Ty.ofKind k)
  return (t.withSourcesOf a).withSourcesOf b

/-- The nearest type that accepts both types. -/
def supertype (c : Checker) (a b : Ty) : Run Ty := do
  if a.equal b then return a.withSourcesOf b
  if a.isEager && b.isEager then
    if a.kind ≠ b.kind then return Ty.error
    let fields ← Run.collectAlong a.fields fun name fa =>
      match _shared : NameMap.find? b.fields name with
      | some fb => do
        let s ← c.supertype fa fb
        return if s.kind = .error then none else some s
      | none => pure none
    c.aggregateLike a b fields
  else
    let ab ← c.exactly.accepts a b
    let ba ← c.exactly.accepts b a
    if ab && ba then mutualBound a b
    else if ab then return a.withSourcesOf b
    else if ba then return b.withSourcesOf a
    else if a.isLazy || b.isLazy then
      if ← c.expandBoth a b then
        match _first : a.expansion?, _second : b.expansion? with
        | some ea, some eb =>
          if _onward : a.hasProvider ∨ b.hasProvider then c.supertype ea eb else Run.fail .endless
        | _, _ => return Ty.error
      else return Ty.error
    else joinKinds a b
termination_by (b.weight, a.weight)
decreasing_by
  · exact Prod.Lex.left _ _ (Ty.weight_lt_of_find?_fields _shared)
  · exact Ty.weight_expansions _first _second _onward

end Checker

end FormulaTypes
