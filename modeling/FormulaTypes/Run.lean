import FormulaTypes.Fault

/-!
# Runs

An operation on types has an outcome, and on its way demands fields of providers. A run keeps both: the outcome, which
depends on nothing else, and the demands in their order, from which a memo tells which resolvers were called.
-/

namespace FormulaTypes

/-- A field that was asked of a provider. -/
structure Demand where
  provider : Provider Ty
  field : Bytes

/-- The outcome of an operation and the demands it made. -/
structure Run (α : Type) where
  demands : List Demand
  outcome : Except Fault α

namespace Run

variable {α β : Type}

/-- A run that gives a value and demands nothing. -/
@[inline] def done (a : α) : Run α := ⟨[], .ok a⟩

/-- One run after another; a fault ends the run. -/
@[inline] def andThen (x : Run α) (f : α → Run β) : Run β :=
  match x.outcome with
  | .ok a =>
    let next := f a
    ⟨x.demands ++ next.demands, next.outcome⟩
  | .error fault => ⟨x.demands, .error fault⟩

@[always_inline] instance : Monad Run where
  pure := done
  bind := andThen

/-- A run that demands nothing. -/
@[inline] def lift (x : Except Fault α) : Run α := ⟨[], x⟩

/-- A run that only demands. -/
@[inline] def note (demands : List Demand) : Run Unit := ⟨demands, .ok ()⟩

/-- A run that ends in a fault. -/
@[inline] def fail (fault : Fault) : Run α := ⟨[], .error fault⟩

@[simp] theorem outcome_pure (a : α) : (pure a : Run α).outcome = .ok a := rfl

@[simp] theorem outcome_bind (x : Run α) (f : α → Run β) :
    (x >>= f).outcome = x.outcome.bind fun a => (f a).outcome := by
  change (andThen x f).outcome = _
  unfold andThen
  cases x.outcome <;> rfl

@[simp] theorem outcome_lift (x : Except Fault α) : (lift x).outcome = x := rfl

@[simp] theorem outcome_note (demands : List Demand) : (note demands).outcome = .ok () := rfl

@[simp] theorem outcome_fail (fault : Fault) : (fail fault : Run α).outcome = .error fault := rfl

/-! ## Along fields -/

/-- The first finding along some fields; the fields after it are not looked at. -/
@[specialize] def firstAlong : List (Bytes × Ty) → (Bytes → Ty → Run (Option β)) → Run (Option β)
  | [], _ => pure none
  | (name, t) :: rest, look => do
    match ← look name t with
    | some b => pure (some b)
    | none => firstAlong rest look

/-- The findings along some fields, by name. -/
@[specialize] def collectAlong : List (Bytes × Ty) → (Bytes → Ty → Run (Option β)) → Run (List (Bytes × β))
  | [], _ => pure []
  | (name, t) :: rest, look => do
    let found ← look name t
    let more ← collectAlong rest look
    match found with
    | some b => pure ((name, b) :: more)
    | none => pure more

end Run

/-! ## Demands of a type -/

namespace Ty

/-- The demand of one field; types without provider demand nothing. -/
def demand (t : Ty) (name : Bytes) : List Demand :=
  match t.provider? with
  | some p => [⟨p, name⟩]
  | none => []

/-- The type of a field. -/
def field (t : Ty) (name : Bytes) : Run (Option Ty) := ⟨t.demand name, .ok (t.field? name)⟩

/-- The demands of an expansion: all fields in order, if it is allowed. -/
def expansionDemands (t : Ty) : List Demand :=
  match t.provider? with
  | some p => if p.expandable then p.names.map (⟨p, ·⟩) else []
  | none => []

end Ty

end FormulaTypes
