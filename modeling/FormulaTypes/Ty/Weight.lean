import FormulaTypes.Ty.Basic

/-!
# The parts of a type

The parts of a type are the types of its fields, for a lazy type the types that its fields resolve to. The weight of a
type grows with its parts, and a lazy type weighs more than its expansion, so that walks through types end.
-/

namespace FormulaTypes

-- Sums start from the zero of the core library, whatever else is imported.
attribute [local instance (2000)] Zero.ofOfNat0

/-- The types right below a form. -/
def Form.parts {α : Type} : Form α → List α
  | .leaf _ _ | .enum _ _ | .lazy _ _ none => []
  | .choices _ fields | .aggregate _ _ fields => fields.map Prod.snd
  | .lazy _ _ (some p) => p.fields.map Prod.snd

namespace Ty

/-- The types right below a type. -/
def parts (t : Ty) : List Ty := t.form.parts

theorem sizeOf_lt_of_mem_fields {fields : List (Bytes × Ty)} {t : Ty} (h : t ∈ fields.map Prod.snd) :
    sizeOf t < sizeOf fields := by
  obtain ⟨e, he, rfl⟩ := List.mem_map.1 h
  have := List.sizeOf_lt_of_mem he
  obtain ⟨name, t⟩ := e
  simp at this ⊢
  omega

theorem sizeOf_lt_of_mem_provider {p : Provider Ty} {t : Ty} (h : t ∈ p.fields.map Prod.snd) :
    sizeOf t < sizeOf p := by
  obtain ⟨identity, expandable, resolvers, cell⟩ := p
  obtain ⟨e, he, rfl⟩ := List.mem_map.1 h
  obtain ⟨⟨name, r⟩, hr, hm⟩ := List.mem_filterMap.1 he
  have := List.sizeOf_lt_of_mem hr
  cases r with
  | host result =>
    simp only [Resolver.result?, Option.map_eq_some_iff] at hm
    obtain ⟨t, rfl, rfl⟩ := hm
    simp at this ⊢
    omega
  | bound type =>
    simp only [Resolver.result?, Option.map_some, Option.some.injEq] at hm
    subst hm
    simp at this ⊢
    omega

/-- A part is smaller than the whole. -/
theorem sizeOf_lt_of_mem_parts {t part : Ty} (h : part ∈ t.parts) : sizeOf part < sizeOf t := by
  obtain ⟨form, token, sources⟩ := t
  simp only [parts, Ty.form] at h
  cases form with
  | leaf | enum => simp [Form.parts] at h
  | choices | aggregate =>
    have := sizeOf_lt_of_mem_fields h
    simp at this ⊢
    omega
  | lazy isTable optional provider =>
    cases provider with
    | none => simp [Form.parts] at h
    | some p =>
      have := sizeOf_lt_of_mem_provider h
      simp at this ⊢
      omega

/-- To prove something of all types, prove it of a type from its parts. -/
theorem induction {P : Ty → Prop} (step : ∀ t, (∀ part ∈ t.parts, P part) → P t) (t : Ty) : P t :=
  step t fun part _ => induction step part
termination_by sizeOf t
decreasing_by exact sizeOf_lt_of_mem_parts ‹_›

/-- What a type weighs by itself. An enum weighs more than the kind of its literals, a lazy type more than an eager
one. -/
def ownWeight (t : Ty) : Nat :=
  match t.form with
  | .enum _ _ | .lazy _ _ _ => 2
  | _ => 1

/-- The weight of a type: its own and that of its parts. -/
def weight (t : Ty) : Nat := t.ownWeight + (t.parts.attach.map fun part => weight part.1).sum
termination_by sizeOf t
decreasing_by exact sizeOf_lt_of_mem_parts part.2

theorem weight_eq (t : Ty) : t.weight = t.ownWeight + (t.parts.map weight).sum := by
  rw [weight, List.attach_map_val (f := weight)]

theorem ownWeight_pos (t : Ty) : 0 < t.ownWeight := by
  unfold ownWeight
  split <;> omega

theorem le_sum_of_mem {l : List Nat} {n : Nat} (h : n ∈ l) : n ≤ l.sum := by
  induction l with
  | nil => simp at h
  | cons m l ih =>
    rcases List.mem_cons.1 h with rfl | h
    · simp
    · simp only [List.sum_cons]
      have := ih h
      omega

/-- A part weighs less than the whole. -/
theorem weight_lt_of_mem_parts {t part : Ty} (h : part ∈ t.parts) : part.weight < t.weight := by
  have := le_sum_of_mem (List.mem_map_of_mem (f := weight) h)
  have := t.ownWeight_pos
  rw [weight_eq t]
  omega

theorem mem_map_snd_of_find? {fields : NameMap Ty} {name : Bytes} {t : Ty} (h : NameMap.find? fields name = some t) :
    t ∈ fields.map Prod.snd :=
  List.mem_map.2 ⟨(name, t), NameMap.mem_of_find? h, rfl⟩

theorem mem_fields_of_get? {p : Provider Ty} {name : Bytes} {t : Ty} (h : p.get? name = some t) :
    (name, t) ∈ p.fields := by
  obtain ⟨r, hr, ht⟩ := Option.bind_eq_some_iff.1 h
  exact List.mem_filterMap.2 ⟨(name, r), NameMap.mem_of_find? hr, by simp [ht]⟩

/-- What a name gives is a part. -/
theorem mem_parts_of_field? {t part : Ty} {name : Bytes} (h : t.field? name = some part) : part ∈ t.parts := by
  obtain ⟨form, token, sources⟩ := t
  cases form with
  | leaf | enum => simp [field?, provider?, fields, Ty.form] at h
  | choices | aggregate => exact mem_map_snd_of_find? h
  | lazy isTable optional provider =>
    cases provider with
    | none => simp [field?, provider?, fields, Ty.form] at h
    | some p => exact List.mem_map.2 ⟨(name, part), mem_fields_of_get? h, rfl⟩

/-- What a name gives weighs less than the whole. -/
theorem weight_lt_of_field? {t part : Ty} {name : Bytes} (h : t.field? name = some part) : part.weight < t.weight :=
  weight_lt_of_mem_parts (mem_parts_of_field? h)

/-- What stands in the field map weighs less than the whole. -/
theorem weight_lt_of_find?_fields {t part : Ty} {name : Bytes} (h : NameMap.find? t.fields name = some part) :
    part.weight < t.weight := by
  refine weight_lt_of_mem_parts ?_
  obtain ⟨form, token, sources⟩ := t
  cases form with
  | leaf | enum | lazy => simp [fields, Ty.form] at h
  | choices | aggregate => exact mem_map_snd_of_find? h

end Ty

end FormulaTypes
