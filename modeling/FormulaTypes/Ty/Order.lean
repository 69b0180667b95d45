import FormulaTypes.Ty.Weight

/-!
# Order in a type

`Ty.Everywhere P t` says that `P` holds of `t` and of every type below it, through fields and through the types that
lazy fields resolve to. A type is in order if its maps are, and those of every type below it.
-/

namespace FormulaTypes

/-- The maps of a form are in the order of their names. -/
def Form.Ordered : Form Ty → Prop
  | .leaf _ _ | .enum _ _ | .lazy _ _ none => True
  | .choices _ fields | .aggregate _ _ fields => NameMap.Ordered fields
  | .lazy _ _ (some p) => NameMap.Ordered p.resolvers

instance {α : Type} (m : NameMap α) : Decidable m.Ordered := inferInstanceAs (Decidable (List.Pairwise _ _))

instance : (form : Form Ty) → Decidable form.Ordered
  | .leaf _ _ | .enum _ _ | .lazy _ _ none => isTrue trivial
  | .choices _ fields | .aggregate _ _ fields => inferInstanceAs (Decidable (NameMap.Ordered fields))
  | .lazy _ _ (some p) => inferInstanceAs (Decidable (NameMap.Ordered p.resolvers))

namespace Ty

/-- The property holds of the type and of all types below it. -/
inductive Everywhere (P : Ty → Prop) : Ty → Prop
  | intro {t : Ty} (here : P t) (below : ∀ part ∈ t.parts, Everywhere P part) : Everywhere P t

namespace Everywhere

variable {P Q : Ty → Prop} {t : Ty}

theorem here (h : Everywhere P t) : P t := by
  cases h
  assumption

theorem part (h : Everywhere P t) {u : Ty} (hu : u ∈ t.parts) : Everywhere P u := by
  cases h with
  | intro _ below => exact below u hu

theorem field (h : Everywhere P t) {name : Bytes} {u : Ty} (hu : t.field? name = some u) : Everywhere P u :=
  h.part (mem_parts_of_field? hu)

/-- What follows from the property at each type follows everywhere. -/
theorem imp (h : Everywhere P t) (hpq : ∀ u, P u → Q u) : Everywhere Q t := by
  induction h with
  | intro here _ ih => exact .intro (hpq _ here) ih

end Everywhere

theorem everywhere_iff {P : Ty → Prop} {t : Ty} : Everywhere P t ↔ P t ∧ ∀ part ∈ t.parts, Everywhere P part := by
  constructor
  · intro h
    exact ⟨h.here, fun part hp => h.part hp⟩
  · rintro ⟨here, below⟩
    exact .intro here below

instance Everywhere.decidable {P : Ty → Prop} [DecidablePred P] (t : Ty) : Decidable (t.Everywhere P) :=
  have : ∀ part : { part // part ∈ t.parts }, Decidable (part.1.Everywhere P) := fun part => decidable part.1
  decidable_of_iff (P t ∧ ∀ part ∈ t.parts.attach, part.1.Everywhere P) (by
    rw [everywhere_iff]
    refine and_congr_right fun _ => ?_
    constructor
    · intro h part hp
      exact h ⟨part, hp⟩ (List.mem_attach _ _)
    · intro h part _
      exact h part.1 part.2)
termination_by sizeOf t
decreasing_by exact sizeOf_lt_of_mem_parts part.2

/-- Everywhere in the type the maps are in order. -/
def InOrder (t : Ty) : Prop := t.Everywhere fun u => u.form.Ordered

instance (t : Ty) : Decidable t.InOrder := Everywhere.decidable t

theorem ordered_fields_of_form {t : Ty} (h : t.form.Ordered) : NameMap.Ordered t.fields := by
  rw [Ty.fields]
  cases hf : t.form with
  | choices | aggregate =>
    rw [hf] at h
    exact h
  | leaf | enum | lazy => exact NameMap.ordered_nil

end Ty

end FormulaTypes
