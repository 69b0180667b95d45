import FormulaTypes.Checker.Supertype

/-!
# Unions

The merge of two types. Aggregates of one kind keep all fields of both, merging those they share; a shared field that
cannot be merged becomes `error`, and the merge is reported as conflicting.
-/

namespace FormulaTypes

/-- The aggregate was expanded from the entity. -/
def Ty.isExpansionOf (aggregate entity : Ty) : Bool :=
  aggregate.isAggregate && entity.kind = .dataEntity && aggregate.token.isSome &&
    Token.same aggregate.token entity.token

/-- A merge and whether it went without conflict. -/
structure Merge where
  type : Ty
  clean : Bool

namespace Checker

/-- Merges two fields that are not both eager aggregates: nothing gives way, an entity stands for its expansion, and
all else meets at the supertype. -/
def mergeLeaves (c : Checker) (a b : Ty) : Run Merge :=
  if a.isExpansionOf b then pure ⟨b, true⟩
  else if b.isExpansionOf a then pure ⟨a, true⟩
  else do
    let s ← c.supertype a b
    return ⟨s, s.kind ≠ .error || a.kind = .error || b.kind = .error⟩

/-- The merge of two types. -/
def union (c : Checker) (a b : Ty) : Run Merge := do
  if a.kind = .objNull ∧ b.kind ≠ .void then return ⟨b.withSourcesOf a, true⟩
  if b.kind = .objNull ∧ a.kind ≠ .void then return ⟨a.withSourcesOf b, true⟩
  if a.isEager && b.isEager then
    if a.kind ≠ b.kind then return ⟨Ty.error, false⟩
    let merged ← Run.collectAlong b.fields fun name fb =>
      match _shared : NameMap.find? a.fields name with
      | none => pure (some ⟨fb, true⟩)
      | some fa =>
        if fa.kind = .objNull then pure (some ⟨fb, true⟩)
        else if fb.kind = .objNull then pure (some ⟨fa, true⟩)
        else if fa.isEager && fb.isEager then do
          let m ← c.union fa fb
          return some m
        else do
          let m ← c.mergeLeaves fa fb
          return some m
    let t ← c.aggregateLike a b (NameMap.insertAll a.fields (merged.map fun e => (e.1, e.2.type)))
    return ⟨t, merged.all fun e => e.2.clean⟩
  else
    let ab ← c.exactly.accepts a b
    let ba ← c.exactly.accepts b a
    if ab && ba then
      let t ← mutualBound a b
      return ⟨t, true⟩
    else if ab then return ⟨a.withSourcesOf b, true⟩
    else if ba then return ⟨b.withSourcesOf a, true⟩
    else if a.isLazy || b.isLazy then
      if ← c.expandBoth a b then
        match _first : a.expansion?, _second : b.expansion? with
        | some ea, some eb =>
          if _onward : b.hasProvider ∨ a.hasProvider then c.union ea eb else Run.fail .endless
        | _, _ => return ⟨Ty.error, false⟩
      else return ⟨Ty.error, false⟩
    else
      let s ← c.supertype a b
      return ⟨s, s.kind ≠ .error⟩
termination_by (a.weight, b.weight)
decreasing_by
  · exact Prod.Lex.left _ _ (Ty.weight_lt_of_find?_fields _shared)
  · exact Ty.weight_expansions _second _first _onward

end Checker

end FormulaTypes
