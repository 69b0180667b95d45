import FormulaTypes.Checker.Coercion
import FormulaTypes.Proofs.Checker.Ends

/-!
# How a value is converted

`c.Converts f src dst r` has one rule for each way in which a coercion comes about. What the rules give is the coercion
(`coerce_of_converts`), and every coercion comes from them (`converts_of_coerce`), so that a property of all coercions
is one case a rule.
-/

namespace FormulaTypes

/-- The conversion of an aggregate, made of those of its fields. -/
def Coercion.ofFields (shape : Shape) (optional : Bool) (found : List (Bytes × Coercion)) : Coercion :=
  ⟨found.all fun e => e.2.safe, .ofForm (.aggregate shape optional (found.map fun e => (e.1, e.2.type)))⟩

/-- What becomes of a field that a destination asks for: something, if the source has the field. -/
def Ty.answer {α : Type} (src : Ty) (conv : Bytes × Ty → α) (e : Bytes × Ty) : Option α :=
  (src.field? e.1).map fun _ => conv e

namespace Checker

/-! ## Walks along the fields of a destination -/

section Along

variable {look : Bytes → Ty → Run (Option (Option Coercion))} {fields : List (Bytes × Ty)}

/-- The conversions along some fields are those at each field, if none is missing. -/
theorem coerceAlong_eq_ok {answer : Bytes × Ty → Option Coercion}
    (h : ∀ e ∈ fields, (look e.1 e.2).outcome = .ok (some (answer e))) :
    (coerceAlong fields look).outcome = .ok (some (fields.filterMap (Run.kept answer))) := by
  induction fields with
  | nil => rfl
  | cons e fields ih =>
    obtain ⟨name, t⟩ := e
    have hfirst := h (name, t) List.mem_cons_self
    have hrest := ih fun e he => h e (List.mem_cons_of_mem _ he)
    rw [coerceAlong, Run.bind_of_ok hfirst]
    dsimp only
    rw [Run.bind_of_ok hrest]
    cases ha : answer (name, t) with
    | some r => simp [Run.kept, ha]
    | none => simp [Run.kept, ha]

/-- A walk that gives conversions was given one at each field, or leave to go without. -/
theorem exists_of_coerceAlong {found : List (Bytes × Coercion)}
    (h : (coerceAlong fields look).outcome = .ok (some found)) :
    ∀ e ∈ fields, ∃ answer, (look e.1 e.2).outcome = .ok (some answer) := by
  induction fields generalizing found with
  | nil =>
    intro e he
    cases he
  | cons e fields ih =>
    obtain ⟨name, t⟩ := e
    rw [coerceAlong, Run.bind_eq_ok_iff] at h
    obtain ⟨_ | answer, hfirst, h⟩ := h
    · cases h
    obtain ⟨_ | more, hrest, -⟩ := Run.bind_eq_ok_iff.1 h
    · rw [Run.bind_of_ok hrest] at h
      cases h
    refine List.forall_mem_cons.2 ⟨⟨answer, hfirst⟩, ih hrest⟩

end Along

variable {c : Checker} {f : CoercionFlags} {src dst wanted shaped : Ty} {r : Coercion}

/-! ## Shapes -/

/-- To ask for the expansion of what is lazy is to ask for the expansion. -/
theorem outcome_expandLazy {β : Type} (audit : Bool) (k : Option Ty → Run β) :
    (if dst.isLazy = true then dst.expand audit >>= k else pure (some dst) >>= k).outcome =
      (k dst.expansion?).outcome := by
  split
  · exact Run.bind_of_ok (outcome_expand _ _)
  · next hl =>
    rw [Run.bind_of_ok (Run.outcome_pure _), expansion?_of_not_lazy (by simpa using hl)]

/-- The table of an aggregate is a table. -/
theorem isTable_toTable {audit : Bool} {t table : Ty} (h : t.toTable audit none = .ok table) :
    table.isTable = true ∧ (t.isEager = true → table.kind = .table) := by
  have haudited : ∀ {u : Ty}, u.audited audit = .ok table → table = u := by
    intro u hu
    unfold Ty.audited at hu
    split at hu <;> cases hu
    rfl
  obtain ⟨form, token, sources⟩ := t
  cases form with
  | aggregate shape optional fields =>
    rw [haudited h]
    exact ⟨rfl, fun _ => rfl⟩
  | lazy isTable optional provider =>
    rw [haudited h]
    exact ⟨rfl, fun he => by cases isTable <;> cases he⟩
  | leaf | enum | choices =>
    simp only [Ty.toTable] at h
    split at h
    · rw [haudited h]
      exact ⟨rfl, fun _ => rfl⟩
    · cases h

/-- A source keeps its shape, or becomes a table at the top and on request. -/
theorem reshape_cases (h : (c.reshape f src wanted).outcome = .ok (some shaped)) :
    (src.isTable = wanted.isTable ∧ shaped = src) ∨
      (src.isTable = false ∧ wanted.isTable = true ∧ f.aggregate = true ∧ f.top = true ∧ shaped.isTable = true ∧
        (src.isEager = true → shaped.kind = .table)) := by
  rw [reshape] at h
  split at h
  · next ht =>
    cases h
    exact .inl ⟨ht, rfl⟩
  · next ht =>
    split at h
    · next hf =>
      simp only [Bool.and_eq_true] at hf
      obtain ⟨table, htable, hpure⟩ := Run.bind_eq_ok_iff.1 h
      cases hpure
      have hsrc : src.isTable = false := by
        rw [hf.1.1] at ht
        simpa using ht
      exact .inr ⟨hsrc, hf.1.1, hf.1.2, hf.2, isTable_toTable htable⟩
    · cases h

/-! ## The rules -/

/-- The source is not accepted, and neither type is of a kind that is never converted. -/
structure Convertible (c : Checker) (src dst : Ty) : Prop where
  error : src.kind ≠ .error
  refused : c.Refuses dst src
  kinds : ¬ (src.kind = .namedValue ∨ dst.kind = .namedValue ∨ src.kind = .void ∨ dst.kind = .void ∨ dst.kind = .error)

/-- How a checker converts a value of one type to another type. -/
inductive Converts (c : Checker) : CoercionFlags → Ty → Ty → Coercion → Prop
  /-- What is accepted is taken for what accepts it. -/
  | accepted {f : CoercionFlags} {src dst : Ty} (hs : src.kind ≠ .error) (h : c.Fits dst src) :
      Converts c f src dst ⟨true, dst⟩
  /-- Nothing, and what is not yet known, become everything. -/
  | absent {f : CoercionFlags} {src dst : Ty} (h : c.Convertible src dst)
      (hs : src.kind = .objNull ∨ src.kind = .deferred) : Converts c f src dst ⟨true, dst⟩
  /-- Enums are converted as the kind of their literals. -/
  | restricted {f : CoercionFlags} {src dst base : Ty} {r : Coercion} (h : c.Convertible src dst)
      (hs : src.kind = .enum) (hbase : Ty.ofKind src.superkind = .ok base) (hr : Converts c f base dst r) :
      Converts c f src dst r
  /-- Untyped data become some plain values, never safely. -/
  | untyped {f : CoercionFlags} {src dst : Ty} (h : c.Convertible src dst) (hs : src.kind = .untypedObject)
      (hd : dst.kind.isUntypedTarget = true) : Converts c f src dst ⟨false, dst⟩
  /-- Types without fields are converted by their kinds. -/
  | plain {f : CoercionFlags} {src dst : Ty} {safe : Bool} (h : c.Convertible src dst)
      (hs : ¬ (src.kind = .objNull ∨ src.kind = .deferred)) (he : src.kind ≠ .enum) (hu : src.kind ≠ .untypedObject)
      (hd : dst.isAggregate = false) (ha : src.isAggregate = false)
      (hsafe : leafConversion? src dst.kind = some safe) : Converts c f src dst ⟨safe, dst⟩
  /-- Aggregates are converted field by field, to the expansion of what is lazy. -/
  | fields {f : CoercionFlags} {src dst wanted shaped : Ty} (h : c.Convertible src dst) (hs : src.isAggregate = true)
      (hd : dst.isAggregate = true) (hlazy : (src.isLazy && dst.isLazy) = false) (hx : dst.expansion? = some wanted)
      {shape : Shape} {optional : Bool} {fields : List (Bytes × Ty)}
      (hform : wanted.form = .aggregate shape optional fields)
      (hshape : (c.reshape f src wanted).outcome = .ok (some shaped))
      (hkind : ¬ ((wanted.kind = .file ∨ wanted.kind = .largeImage) ∧ shaped.kind ≠ wanted.kind))
      (conv : Bytes × Ty → Coercion)
      (hfound : ∀ e ∈ fields, ∀ actual, src.field? e.1 = some actual → Converts c f.nested actual e.2 (conv e))
      (hmissing : ∀ e ∈ fields, src.field? e.1 = none → optional = true) :
      Converts c f src dst (.ofFields shape optional (fields.filterMap (Run.kept (src.answer conv))))

/-! ## The rules give what is computed -/

/-- The aggregate of some conversions. -/
theorem outcome_coerced {shape : Shape} {optional : Bool} {fields : List (Bytes × Ty)}
    (hform : wanted.form = .aggregate shape optional fields) (found : List (Bytes × Coercion)) :
    (c.coerced wanted found).outcome = .ok (.ofFields shape optional found) := by
  have hoptional : wanted.optional = optional := by rw [Ty.optional, hform]
  rw [coerced, ofKindFields_eq hform, Run.bind_of_ok (Run.outcome_lift _), hoptional]
  cases optional with
  | false => rfl
  | true =>
    simp only [if_true]
    rw [Ty.ofForm, Ty.withOptional, if_neg (by decide), audited_aggregate]
    rfl

/-- Conversions of aggregates come from the rule for fields. -/
theorem coerceAggregate_of_fields (hs : src.isAggregate = true) (hlazy : (src.isLazy && dst.isLazy) = false)
    (hx : dst.expansion? = some wanted) {shape : Shape} {optional : Bool} {fields : List (Bytes × Ty)}
    (hform : wanted.form = .aggregate shape optional fields)
    (hshape : (c.reshape f src wanted).outcome = .ok (some shaped))
    (hkind : ¬ ((wanted.kind = .file ∨ wanted.kind = .largeImage) ∧ shaped.kind ≠ wanted.kind))
    {conv : Bytes × Ty → Coercion}
    (hfound : ∀ e ∈ fields, ∀ actual, src.field? e.1 = some actual →
      (c.coerce f.nested actual e.2).outcome = .ok (some (conv e)))
    (hmissing : ∀ e ∈ fields, src.field? e.1 = none → optional = true) :
    (c.coerceAggregate f src dst).outcome =
      .ok (some (.ofFields shape optional (fields.filterMap (Run.kept (src.answer conv))))) := by
  have hfields : wanted.fields = fields := by rw [Ty.fields, hform]
  have hoptional : wanted.optional = optional := by rw [Ty.optional, hform]
  rw [coerceAggregate, if_neg (by simp [hs, hlazy])]
  dsimp only
  rw [outcome_expandLazy, hx]
  dsimp only
  rw [Run.bind_of_ok hshape]
  dsimp only
  rw [if_neg hkind, hfields, Run.bind_of_ok (coerceAlong_eq_ok fun e he => ?_)]
  · dsimp only
    rw [Run.bind_of_ok (outcome_coerced hform _)]
    rfl
  · rw [Run.bind_of_ok (Run.outcome_note _)]
    split
    · next actual hactual =>
      rw [Run.bind_of_ok (hfound e he actual hactual), Ty.answer, hactual]
      rfl
    · next hnone =>
      rw [hoptional, hmissing e he hnone, Ty.answer, hnone]
      rfl

/-- What the rules give is the coercion. -/
theorem coerce_of_converts (h : c.Converts f src dst r) : (c.coerce f src dst).outcome = .ok (some r) := by
  induction h with
  | accepted hs h =>
    rw [coerce, if_neg hs, Run.bind_of_ok (accepts_eq_true_iff.2 h)]
    rfl
  | absent h hs =>
    rw [coerce, if_neg h.error, Run.bind_of_ok h.refused, if_neg (by decide), if_neg h.kinds, if_pos hs]
    rfl
  | @restricted f src dst base r h hs hbase _ ih =>
    rw [coerce, if_neg h.error, Run.bind_of_ok h.refused, if_neg (by decide), if_neg h.kinds, if_neg (by simp [hs]),
      dif_pos hs]
    split
    · next fault hfault =>
      rw [hbase] at hfault
      cases hfault
    · next base' hbase' =>
      rw [hbase] at hbase'
      cases hbase'
      exact ih
  | untyped h hs hd =>
    rw [coerce, if_neg h.error, Run.bind_of_ok h.refused, if_neg (by decide), if_neg h.kinds, if_neg (by simp [hs]),
      dif_neg (by simp [hs]), if_pos hs, if_pos hd]
    rfl
  | plain h hs he hu hd ha hsafe =>
    rw [coerce, if_neg h.error, Run.bind_of_ok h.refused, if_neg (by decide), if_neg h.kinds, if_neg hs, dif_neg he,
      if_neg hu, if_neg (by simp [hd]), if_neg (by simp [ha]), hsafe]
    rfl
  | @fields f src dst wanted shaped h hs hd hlazy hx shape optional fields hform hshape hkind conv hfound hmissing ih =>
    have hne : ∀ k : Kind, k.isAggregate = false → src.kind ≠ k := fun _ => Ty.kind_ne_of_isAggregate hs
    have hfree : ¬ (src.kind = .objNull ∨ src.kind = .deferred) := not_or.2 ⟨hne _ rfl, hne _ rfl⟩
    rw [coerce, if_neg h.error, Run.bind_of_ok h.refused, if_neg (by decide), if_neg h.kinds, if_neg hfree,
      dif_neg (hne _ rfl), if_neg (hne _ rfl), if_pos hd]
    exact coerceAggregate_of_fields hs hlazy hx hform hshape hkind ih hmissing

/-! ## What is computed comes from the rules -/

/-- Only eager aggregates are made of fields. -/
theorem exists_form_of_ofKindFields {audit : Bool} {t made : Ty} {fields : NameMap Ty}
    (h : Ty.ofKindFields audit t.kind fields = .ok made) :
    ∃ shape optional old, t.form = .aggregate shape optional old := by
  rw [← Ty.isEager_iff, Ty.isEager]
  unfold Ty.ofKindFields at h
  split at h
  case h_5 => cases h
  all_goals
    next hk =>
      rw [hk]
      rfl

/-- What is converted has the shape that is asked for, and each field that is asked for is converted or may be
missing. -/
theorem exists_of_coerceAggregate (hr : (c.coerceAggregate f src dst).outcome = .ok (some r)) :
    src.isAggregate = true ∧ (src.isLazy && dst.isLazy) = false ∧ ∃ wanted shaped shape optional fields,
      dst.expansion? = some wanted ∧ wanted.form = .aggregate shape optional fields ∧
      (c.reshape f src wanted).outcome = .ok (some shaped) ∧
      ¬ ((wanted.kind = .file ∨ wanted.kind = .largeImage) ∧ shaped.kind ≠ wanted.kind) ∧
      ∀ e ∈ fields,
        (∃ actual r, src.field? e.1 = some actual ∧ (c.coerce f.nested actual e.2).outcome = .ok (some r)) ∨
        (src.field? e.1 = none ∧ optional = true) := by
  rw [coerceAggregate] at hr
  split at hr
  · cases hr
  next hagg =>
  simp only [Bool.or_eq_true, Bool.not_eq_true', not_or, Bool.not_eq_false, Bool.not_eq_true] at hagg
  dsimp only at hr
  rw [outcome_expandLazy] at hr
  cases hx : dst.expansion? with
  | none =>
    rw [hx] at hr
    cases hr
  | some wanted =>
    rw [hx] at hr
    obtain ⟨_ | shaped, hshape, hr⟩ := Run.bind_eq_ok_iff.1 hr
    · cases hr
    dsimp only at hr
    split at hr
    · cases hr
    next hkind =>
    obtain ⟨_ | found, halong, hr⟩ := Run.bind_eq_ok_iff.1 hr
    · cases hr
    obtain ⟨made, hmade, -⟩ := Run.bind_eq_ok_iff.1 hr
    rw [coerced, Run.bind_eq_ok_iff] at hmade
    obtain ⟨t, ht, -⟩ := hmade
    obtain ⟨shape, optional, fields, hform⟩ := exists_form_of_ofKindFields ht
    refine ⟨hagg.1, hagg.2, wanted, shaped, shape, optional, fields, rfl, hform, hshape, hkind, fun e he => ?_⟩
    have hfields : wanted.fields = fields := by rw [Ty.fields, hform]
    have hoptional : wanted.optional = optional := by rw [Ty.optional, hform]
    obtain ⟨answer, hlook⟩ := exists_of_coerceAlong halong e (hfields ▸ he)
    rw [Run.bind_of_ok (Run.outcome_note _)] at hlook
    split at hlook
    · next actual hactual =>
      obtain ⟨_ | r, hcoerce, hpure⟩ := Run.bind_eq_ok_iff.1 hlook
      · cases hpure
      exact .inl ⟨actual, r, hactual, hcoerce⟩
    · next hnone =>
      refine .inr ⟨hnone, ?_⟩
      rw [← hoptional]
      by_contra hno
      simp [hno] at hlook

/-- Conversions of aggregates come from the rule for fields, if those of the fields come from the rules. -/
theorem converts_of_coerceAggregate (h : c.Convertible src dst) (hd : dst.isAggregate = true)
    (ih : ∀ name actual, src.field? name = some actual → ∀ expected r,
      (c.coerce f.nested actual expected).outcome = .ok (some r) → c.Converts f.nested actual expected r)
    (hr : (c.coerceAggregate f src dst).outcome = .ok (some r)) : c.Converts f src dst r := by
  obtain ⟨hs, hlazy, wanted, shaped, shape, optional, fields, hx, hform, hshape, hkind, hfields⟩ :=
    exists_of_coerceAggregate hr
  have hfound : ∀ e : Bytes × Ty, ∃ r, e ∈ fields → ∀ actual, src.field? e.1 = some actual →
      (c.coerce f.nested actual e.2).outcome = .ok (some r) := by
    intro e
    by_cases hconverted : ∃ actual r, src.field? e.1 = some actual ∧
        (c.coerce f.nested actual e.2).outcome = .ok (some r)
    · obtain ⟨actual, r, hactual, hcoerce⟩ := hconverted
      refine ⟨r, fun _ actual' hactual' => ?_⟩
      rw [hactual] at hactual'
      cases hactual'
      exact hcoerce
    · refine ⟨⟨true, dst⟩, fun he actual hactual => ?_⟩
      rcases hfields e he with h | ⟨hnone, -⟩
      · exact absurd h hconverted
      · rw [hnone] at hactual
        cases hactual
  choose conv hconv using hfound
  have hmissing : ∀ e ∈ fields, src.field? e.1 = none → optional = true := by
    intro e he hnone
    rcases hfields e he with ⟨actual, -, hactual, -⟩ | ⟨-, hoptional⟩
    · rw [hnone] at hactual
      cases hactual
    · exact hoptional
  rw [coerceAggregate_of_fields hs hlazy hx hform hshape hkind hconv hmissing] at hr
  cases hr
  exact .fields h hs hd hlazy hx hform hshape hkind conv
    (fun e he actual hactual => ih e.1 actual hactual e.2 _ (hconv e he actual hactual)) hmissing

/-- Every coercion comes from the rules. -/
theorem converts_of_coerce (h : (c.coerce f src dst).outcome = .ok (some r)) : c.Converts f src dst r := by
  induction src using Ty.weightInduction generalizing f dst r with
  | step src ih =>
    rw [coerce] at h
    split at h
    · cases h
    next herror =>
    obtain ⟨accepted, haccepted, h⟩ := Run.bind_eq_ok_iff.1 h
    cases accepted with
    | true =>
      cases h
      exact .accepted herror (accepts_eq_true_iff.1 haccepted)
    | false =>
      rw [if_neg (by decide)] at h
      split at h
      · cases h
      next hkinds =>
      have hc : c.Convertible src dst := ⟨herror, haccepted, hkinds⟩
      split at h
      · next hs =>
        cases h
        exact .absent hc hs
      next hs =>
      split at h
      · next he =>
        split at h
        · cases h
        · next base hbase => exact .restricted hc he hbase (ih base (weight_ofKind_lt he hbase) h)
      next he =>
      split at h
      · next hu =>
        split at h
        · next hd =>
          cases h
          exact .untyped hc hu hd
        · cases h
      next hu =>
      split at h
      · next hd =>
        refine converts_of_coerceAggregate hc hd (fun name actual hactual expected r hr => ?_) h
        exact ih actual (Ty.weight_lt_of_field? hactual) hr
      next hd =>
      split at h
      · cases h
      next ha =>
      rw [Run.outcome_pure, Except.ok.injEq, Option.map_eq_some_iff] at h
      obtain ⟨safe, hsafe, rfl⟩ := h
      exact .plain hc hs he hu (by simpa using hd) (by simpa using ha) hsafe

end Checker

end FormulaTypes
