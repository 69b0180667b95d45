import FormulaTypes.Checker.Acceptance
import FormulaTypes.Proofs.NameMap
import FormulaTypes.Proofs.Ty.Form
import FormulaTypes.Proofs.Ty.Sound

/-!
# Expansions

A type is its own expansion, or a lazy type of which all fields were resolved (`expansion_cases`). Hence an expansion
has the fields of the type (`field?_expansion`), and what holds everywhere in the type holds in its parts. A lazy type
whose provider allows it has an expansion that is an aggregate (`exists_expands`).
-/

namespace FormulaTypes

namespace Checker

variable {t expanded : Ty}

/-- A type is its own expansion, unless a provider stands behind it that resolves all its fields. -/
theorem expansion_cases (hx : t.expansion? = some expanded) :
    expanded = t ∨ ∃ isTable optional p, t.form = .lazy isTable optional (some p) ∧
      expanded = .node (.aggregate (if isTable then .table else .record) optional p.fields) t.token t.sources := by
  obtain ⟨form, token, sources⟩ := t
  cases form with
  | lazy isTable optional provider =>
    cases provider with
    | none =>
      cases hx
      exact .inl rfl
    | some p =>
      rw [Ty.expansion?, Option.map_eq_some_iff] at hx
      obtain ⟨fields, hfields, rfl⟩ := hx
      obtain ⟨-, rfl⟩ : p.expandable = true ∧ p.fields = fields := by
        simpa [Provider.expand?] using hfields
      exact .inr ⟨isTable, optional, p, rfl, rfl⟩
  | leaf | enum | choices | aggregate =>
    cases hx
    exact .inl rfl

/-- Types that are not lazy are their own expansions. -/
theorem expansion_of_not_lazy (hl : t.isLazy = false) (hx : t.expansion? = some expanded) : expanded = t := by
  rcases expansion_cases hx with rfl | ⟨isTable, optional, p, hform, -⟩
  · rfl
  · rw [Ty.isLazy_iff.2 ⟨_, _, _, hform⟩] at hl
    cases hl

theorem expansion?_of_not_lazy (hl : t.isLazy = false) : t.expansion? = some t := by
  obtain ⟨form, token, sources⟩ := t
  cases form with
  | lazy isTable => cases isTable <;> cases hl
  | leaf | enum | choices | aggregate => rfl

/-! ## Parts -/

/-- What is in the fields of an expansion is below the type. -/
theorem mem_parts_of_expansion? (hx : t.expansion? = some expanded) {part : Ty} (hp : part ∈ expanded.parts) :
    part ∈ t.parts := by
  rcases expansion_cases hx with rfl | ⟨isTable, optional, p, hform, rfl⟩
  · exact hp
  · rw [Ty.parts, hform]
    exact hp

/-- The fields that a provider resolves are in the order of its resolvers. -/
theorem ordered_fields {p : Provider Ty} (h : NameMap.Ordered p.resolvers) : NameMap.Ordered p.fields := by
  refine h.filterMap ?_
  intro e e' he
  obtain ⟨t, -, rfl⟩ := Option.map_eq_some_iff.1 he
  rfl

theorem ordered_expansion (h : t.form.Ordered) (hx : t.expansion? = some expanded) : expanded.form.Ordered := by
  rcases expansion_cases hx with rfl | ⟨isTable, optional, p, hform, rfl⟩
  · exact h
  · rw [hform] at h
    exact ordered_fields h

theorem inOrder_expansion (h : t.InOrder) (hx : t.expansion? = some expanded) : expanded.InOrder :=
  .intro (ordered_expansion (Ty.Everywhere.here h) hx) fun _ hp => Ty.Everywhere.part h (mem_parts_of_expansion? hx hp)

/-- Expansions of sound types are sound. -/
theorem sound_expansion (h : t.Sound) (hx : t.expansion? = some expanded) : expanded.Sound := by
  refine .intro ⟨ordered_expansion h.ordered hx, ?_⟩ fun part hp => h.part (mem_parts_of_expansion? hx hp)
  rcases expansion_cases hx with rfl | ⟨isTable, optional, p, -, rfl⟩
  · exact h.valid
  · cases isTable <;> simp [Ty.isValid, Ty.violation?, Ty.kind, Ty.form, Form.kind, Shape.kind, Kind.isValid,
      Kind.isLazy, Kind.isAggregate]

/-! ## Fields and kinds -/

/-- An expansion has the fields of the type. -/
theorem field?_expansion (h : t.form.Ordered) (hx : t.expansion? = some expanded) (name : Bytes) :
    expanded.field? name = t.field? name := by
  rcases expansion_cases hx with rfl | ⟨isTable, optional, p, hform, rfl⟩
  · rfl
  · rw [hform] at h
    have ht : t.field? name = p.get? name := by rw [Ty.field?, Ty.provider?, hform]
    rw [ht]
    exact NameMap.find?_filterMap h name

/-- An expansion has its fields at hand. -/
theorem find?_fields_expansion (hx : t.expansion? = some expanded) (name : Bytes) :
    NameMap.find? expanded.fields name = expanded.field? name := by
  rcases expansion_cases hx with rfl | ⟨isTable, optional, p, -, rfl⟩
  · obtain ⟨form, token, sources⟩ := expanded
    cases form with
    | lazy isTable optional provider =>
      cases provider with
      | none => rfl
      | some p =>
        obtain ⟨fields, -, hx⟩ := Option.map_eq_some_iff.1 hx
        cases hx
    | leaf | enum | choices | aggregate => rfl
  · rfl

/-- The eager expansion of a lazy type is an aggregate of its shape. -/
theorem sameShape_expansion (hl : t.isLazy = true) (hx : t.expansion? = some expanded)
    (he : expanded.isEager = true) : expanded.kind.sameShape t.kind = true := by
  rcases expansion_cases hx with rfl | ⟨isTable, optional, p, hform, rfl⟩
  · rw [(Ty.of_isEager he).2] at hl
    cases hl
  · rw [Ty.kind_of_form hform]
    cases isTable <;> rfl

theorem isTable_expansion (hx : t.expansion? = some expanded) : expanded.isTable = t.isTable := by
  rcases expansion_cases hx with rfl | ⟨isTable, optional, p, hform, rfl⟩
  · rfl
  · rw [Ty.isTable, Ty.isTable, Ty.kind_of_form hform]
    cases isTable <;> rfl

/-- The expansion of a sound lazy type is an aggregate of its shape with the same fields. -/
theorem lazy_expansion (ht : t.Sound) (hl : t.isLazy = true) (hx : t.expansion? = some expanded) :
    expanded.isEager = true ∧ expanded.kind.sameShape t.kind = true ∧
      ∀ name, t.field? name = expanded.field? name := by
  have heager : expanded.isEager = true := by
    obtain ⟨p, hp⟩ := Ty.exists_provider ht.valid hl
    rcases expansion_cases hx with rfl | ⟨isTable, optional, p, -, rfl⟩
    · obtain ⟨form, token, sources⟩ := expanded
      obtain ⟨isTable, optional, provider, hform⟩ := Ty.isLazy_iff.1 hl
      obtain rfl : form = .lazy isTable optional provider := hform
      obtain rfl : provider = some p := hp
      rw [Ty.expansion?, Option.map_eq_some_iff] at hx
      obtain ⟨fields, -, hx⟩ := hx
      cases hx
    · exact Ty.isEager_iff.2 ⟨_, _, _, rfl⟩
  exact ⟨heager, sameShape_expansion hl hx heager, fun name => (field?_expansion ht.ordered hx name).symm⟩

/-- Aggregates may be expanded to eager ones only. -/
theorem isEager_expansion (ht : t.Sound) (ha : t.isAggregate = true) (hx : t.expansion? = some expanded) :
    expanded.isEager = true := by
  cases hl : t.isLazy with
  | true => exact (lazy_expansion ht hl hx).1
  | false =>
    rw [expansion_of_not_lazy hl hx]
    exact Ty.isEager_of_not_lazy ha hl

/-! ## Lazy types that may be expanded -/

/-- A lazy type that may be expanded, and its expansion. -/
inductive Expands : Ty → Ty → Prop
  | intro {p : Provider Ty} (isTable optional : Bool) (token : Option Token) (sources : NameSet)
      (expandable : p.expandable = true) (ordered : NameMap.Ordered p.resolvers) :
      Expands (.node (.lazy isTable optional (some p)) token sources)
        (.node (.aggregate (if isTable then .table else .record) optional p.fields) token sources)

theorem exists_expands {p : Provider Ty} (hp : t.provider? = some p) (hx : p.expandable = true)
    (ho : t.form.Ordered) : ∃ expanded, Expands t expanded := by
  obtain ⟨form, token, sources⟩ := t
  cases form with
  | lazy isTable optional provider =>
    cases hp
    exact ⟨_, .intro isTable optional token sources hx ho⟩
  | leaf | enum | choices | aggregate => cases hp

namespace Expands

theorem isLazy (h : Expands t expanded) : t.isLazy = true := by
  obtain ⟨isTable, _, _, _, _, _⟩ := h
  cases isTable <;> rfl

theorem isEager (h : Expands t expanded) : expanded.isEager = true := by
  obtain ⟨isTable, _, _, _, _, _⟩ := h
  cases isTable <;> rfl

theorem expansion?_eq (h : Expands t expanded) : t.expansion? = some expanded := by
  obtain @⟨p, isTable, optional, token, sources, hx, -⟩ := h
  rw [Ty.expansion?, Provider.expand?, if_pos hx]
  rfl

theorem ordered (h : Expands t expanded) : t.form.Ordered := by
  cases h
  assumption

theorem field?_eq (h : Expands t expanded) (name : Bytes) : expanded.field? name = t.field? name :=
  field?_expansion h.ordered h.expansion?_eq name

end Expands

end Checker

end FormulaTypes
