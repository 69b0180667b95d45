import FormulaTypes.Checker.Supertype

/-!
# Intersections

What two types have in common. Aggregates of one kind keep the fields they share: nested aggregates are intersected,
fields of one kind are kept, and others are dropped. Other types of one kind are kept, and all else is `error`.
-/

namespace FormulaTypes

namespace Checker

/-- What two types have in common. -/
def intersection (c : Checker) (a b : Ty) : Run Ty := do
  if a.equal b then return a.withSourcesOf b
  if a.isLazy || b.isLazy then
    if ← c.expandBoth a b then
      match _first : a.expansion?, _second : b.expansion? with
      | some ea, some eb =>
        if _onward : a.hasProvider ∨ b.hasProvider then c.intersection ea eb else Run.fail .endless
      | _, _ => return Ty.error
    else return Ty.error
  else if a.kind ≠ b.kind then return Ty.error
  else if !a.isAggregate then return a.withSourcesOf b
  else
    let fields ← Run.collectAlong a.fields fun name fa =>
      match _shared : NameMap.find? b.fields name with
      | none => pure none
      | some fb =>
        if fa.isAggregate && fb.isAggregate then do
          let r ← c.intersection fa fb
          return if r.kind = .error then none else some r
        else pure (if fa.kind = fb.kind then some fa else none)
    c.aggregateLike a b fields
termination_by (b.weight, a.weight)
decreasing_by
  · exact Ty.weight_expansions _first _second _onward
  · exact Prod.Lex.left _ _ (Ty.weight_lt_of_find?_fields _shared)

end Checker

end FormulaTypes
