import FormulaTypes.Ty.Weight

/-!
# What a kind says of the form

The kinds of enums, of eager and lazy aggregates and of entities belong to one form each.
-/

namespace FormulaTypes

/-- Kinds that carry nothing are no aggregates. -/
theorem Kind.not_isAggregate_of_isLeaf {k : Kind} (h : k.isLeaf = true) :
    k.isAggregate = false ∧ k.isLazy = false := by
  cases k <;> first | exact ⟨rfl, rfl⟩ | cases h

namespace Ty

variable {t : Ty}

theorem kind_of_form {form : Form Ty} (h : t.form = form) : t.kind = form.kind := by
  rw [kind, h]

/-- Only enums are of the kind `enum`. -/
theorem kind_eq_enum_iff : t.kind = .enum ↔ ∃ superkind values, t.form = .enum superkind values := by
  constructor
  · intro h
    rw [kind] at h
    cases hf : t.form with
    | leaf k hk =>
      rw [hf] at h
      obtain rfl : k = .enum := h
      cases hk
    | enum superkind values => exact ⟨superkind, values, rfl⟩
    | choices choice => rw [hf] at h; cases choice <;> cases h
    | aggregate shape => rw [hf] at h; cases shape <;> cases h
    | lazy isTable => rw [hf] at h; cases isTable <;> cases h
  · rintro ⟨superkind, values, h⟩
    exact kind_of_form h

/-- Only leaves are of the kind `dataEntity`. -/
theorem kind_eq_dataEntity_iff : t.kind = .dataEntity ↔ t.form = .leaf .dataEntity rfl := by
  constructor
  · intro h
    rw [kind] at h
    cases hf : t.form with
    | leaf k hk =>
      rw [hf] at h
      obtain rfl : k = .dataEntity := h
      rfl
    | enum => rw [hf] at h; cases h
    | choices choice => rw [hf] at h; cases choice <;> cases h
    | aggregate shape => rw [hf] at h; cases shape <;> cases h
    | lazy isTable => rw [hf] at h; cases isTable <;> cases h
  · exact kind_of_form

/-- Types that are neither enums nor opaque nor aggregates are leaves. -/
theorem exists_leaf {k : Kind} (hk : t.kind = k) (he : k ≠ .enum) (ho : k.isOpaque = false)
    (ha : k.isAggregate = false) : ∃ h, t.form = .leaf k h := by
  subst hk
  rw [kind] at he ho ha ⊢
  cases hf : t.form with
  | leaf k h => exact ⟨h, rfl⟩
  | enum => exact absurd (by rw [hf]; rfl) he
  | choices choice => rw [hf] at ho; cases choice <;> cases ho
  | aggregate shape => rw [hf] at ha; cases shape <;> cases ha
  | lazy isTable => rw [hf] at ha; cases isTable <;> cases ha

/-- Opaque types are leaves or have choices. -/
theorem form_of_isOpaque (h : t.kind.isOpaque = true) :
    (∃ k hk, t.form = .leaf k hk) ∨ ∃ choice fields, t.form = .choices choice fields := by
  rw [kind] at h
  cases hf : t.form with
  | leaf k hk => exact .inl ⟨k, hk, rfl⟩
  | choices choice fields => exact .inr ⟨choice, fields, rfl⟩
  | enum => rw [hf] at h; cases h
  | aggregate shape => rw [hf] at h; cases shape <;> cases h
  | lazy isTable => rw [hf] at h; cases isTable <;> cases h

/-- Eager aggregates are those with a field map at hand. -/
theorem isEager_iff : t.isEager = true ↔ ∃ shape optional fields, t.form = .aggregate shape optional fields := by
  rw [isEager, kind]
  cases t.form with
  | leaf k hk => simp [Form.kind, Kind.not_isAggregate_of_isLeaf hk]
  | enum => simp [Form.kind, Kind.isAggregate]
  | choices choice => cases choice <;> simp [Form.kind, Choice.kind, Kind.isAggregate]
  | aggregate shape => cases shape <;> simp [Form.kind, Shape.kind, Kind.isAggregate, Kind.isLazy]
  | lazy isTable => cases isTable <;> simp [Form.kind, Kind.isAggregate, Kind.isLazy]

/-- Lazy aggregates are those with a provider's form. -/
theorem isLazy_iff : t.isLazy = true ↔ ∃ isTable optional provider, t.form = .lazy isTable optional provider := by
  rw [isLazy, kind]
  cases t.form with
  | leaf k hk => simp [Form.kind, Kind.not_isAggregate_of_isLeaf hk]
  | enum => simp [Form.kind, Kind.isLazy]
  | choices choice => cases choice <;> simp [Form.kind, Choice.kind, Kind.isLazy]
  | aggregate shape => cases shape <;> simp [Form.kind, Shape.kind, Kind.isLazy]
  | lazy isTable => cases isTable <;> simp [Form.kind, Kind.isLazy]

theorem of_isEager (h : t.isEager = true) : t.isAggregate = true ∧ t.isLazy = false := by
  simpa [isEager, isAggregate, isLazy] using h

/-- Kinds that eager aggregates do not have. -/
theorem kind_of_isEager (h : t.isEager = true) :
    t.kind ≠ .objNull ∧ t.kind ≠ .void ∧ t.kind ≠ .enum ∧ t.kind.isOpaque = false := by
  obtain ⟨shape, optional, fields, hform⟩ := isEager_iff.1 h
  rw [kind_of_form hform, Form.kind]
  cases shape <;> decide

/-- The kind of an eager aggregate says its shape. -/
theorem shape_eq_of_kind_eq {u : Ty} {shape shape' : Shape} {optional optional' : Bool}
    {fields fields' : List (Bytes × Ty)} (h : t.form = .aggregate shape optional fields)
    (h' : u.form = .aggregate shape' optional' fields') (hk : t.kind = u.kind) : shape = shape' := by
  rw [kind_of_form h, kind_of_form h'] at hk
  cases shape <;> cases shape' <;> first | rfl | cases hk

theorem isEager_of_not_lazy (ha : t.isAggregate = true) (hl : t.isLazy = false) : t.isEager = true := by
  rw [isAggregate] at ha
  rw [isLazy] at hl
  rw [isEager, ha, hl]
  rfl

theorem isAggregate_of_isLazy (h : t.isLazy = true) : t.isAggregate = true := by
  obtain ⟨isTable, optional, provider, hform⟩ := isLazy_iff.1 h
  rw [isAggregate, kind_of_form hform]
  cases isTable <;> rfl

/-- Aggregates are of none of the other kinds. -/
theorem kind_ne_of_isAggregate (h : t.isAggregate = true) {k : Kind} (hk : k.isAggregate = false) : t.kind ≠ k := by
  rintro rfl
  rw [isAggregate, hk] at h
  cases h

/-- What an eager aggregate has under a name is what its field map binds. -/
theorem field?_of_isEager (h : t.isEager = true) (name : Bytes) : t.field? name = NameMap.find? t.fields name := by
  obtain ⟨shape, optional, fields, hform⟩ := isEager_iff.1 h
  rw [field?, provider?, hform]

theorem fieldNames_of_isEager (h : t.isEager = true) : t.fieldNames = NameMap.names t.fields := by
  obtain ⟨shape, optional, fields, hform⟩ := isEager_iff.1 h
  rw [fieldNames, provider?, hform]

theorem fields_eq_of_form_eq {u : Ty} (h : t.form = u.form) : t.fields = u.fields := by
  rw [fields, h, fields]

/-- A type that is not lazy has its fields at hand. -/
theorem field?_of_not_lazy (h : t.isLazy = false) (name : Bytes) : t.field? name = NameMap.find? t.fields name := by
  obtain ⟨form, token, sources⟩ := t
  cases form with
  | lazy isTable => cases isTable <;> cases h
  | leaf | enum | choices | aggregate => rfl

/-- What stands in the field map is a part. -/
theorem mem_parts_of_mem_fields {e : Bytes × Ty} (h : e ∈ t.fields) : e.2 ∈ t.parts := by
  obtain ⟨form, token, sources⟩ := t
  cases form with
  | choices | aggregate => exact List.mem_map_of_mem h
  | leaf | enum | lazy => cases h

/-! ## Further sources -/

@[simp] theorem form_withSources (t : Ty) (more : List Bytes) : (t.withSources more).form = t.form := by
  cases t
  rfl

@[simp] theorem token_withSources (t : Ty) (more : List Bytes) : (t.withSources more).token = t.token := by
  cases t
  rfl

@[simp] theorem kind_withSourcesOf (t u : Ty) : (t.withSourcesOf u).kind = t.kind := by
  rw [kind, withSourcesOf, form_withSources, kind]

/-! ## Induction -/

/-- What holds of a type from what holds of all lighter types holds of all types. -/
theorem weightInduction {P : Ty → Prop} (step : ∀ t, (∀ u : Ty, u.weight < t.weight → P u) → P t) (t : Ty) : P t :=
  step t fun u _ => weightInduction step u
termination_by t.weight

end Ty

end FormulaTypes
