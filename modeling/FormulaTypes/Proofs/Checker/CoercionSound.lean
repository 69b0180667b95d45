import FormulaTypes.Proofs.Checker.Conversions

/-!
# Coercion is sound

What a value has become after a coercion is accepted where the value was wanted (`accepts_of_coerce`). Most rules of
`Converts` give the destination itself, which fits itself. An aggregate is made of the conversions of its fields, in the
kind of the destination or of its expansion, and has the fields that are asked for (`fitsFields_ofFields`).
-/

namespace FormulaTypes

namespace Checker

variable {c : Checker} {f : CoercionFlags} {src dst wanted t : Ty} {r : Coercion}

/-- A type other than `void` fits itself. -/
theorem fits_self (h : t.kind ≠ .void) : c.Fits t t := fits_of_equal (Ty.equal_self t) h

/-- An aggregate takes the eager aggregates of the kind of its expansion that have the fields of its expansion. -/
theorem fits_iff_expansion (hd : dst.isAggregate = true) (hx : dst.expansion? = some wanted)
    (hw : wanted.isEager = true) (ht : t.isEager = true) :
    c.Fits dst t ↔ wanted.kind = t.kind ∧ c.FitsFields wanted t := by
  obtain ⟨hta, htl⟩ := Ty.of_isEager ht
  obtain ⟨hc, hte⟩ := compared_of_isAggregate hd hta
  have hvalue : t.kind ≠ .optionSetValue := Ty.kind_ne_of_isAggregate hta rfl
  cases hl : dst.isLazy with
  | false =>
    rw [expansion_of_not_lazy hl hx] at hw ⊢
    obtain ⟨shape, optional, fields, hform⟩ := Ty.isEager_iff.1 hw
    rw [fits_aggregate_iff hc hte hform, fitsAggregate_iff]
    simp [htl, hvalue]
  | true =>
    obtain ⟨isTable, optional, provider, hform⟩ := Ty.isLazy_iff.1 hl
    have hshape := sameShape_expansion hl hx hw
    rw [fits_lazy_iff hc hte hform, Kind.sameShape_iff_eq hshape]
    simp [htl, hx]

/-- The aggregate that is made of the conversions of its fields has the fields that are asked for. -/
theorem fitsFields_ofFields {shape : Shape} {optional : Bool} {fields : List (Bytes × Ty)}
    (hform : wanted.form = .aggregate shape optional fields) (hfields : NameMap.Ordered fields)
    {conv : Bytes × Ty → Coercion}
    (hfound : ∀ e ∈ fields, ∀ actual, src.field? e.1 = some actual → c.Fits e.2 (conv e).type)
    (hmissing : ∀ e ∈ fields, src.field? e.1 = none → optional = true) :
    c.FitsFields wanted (Coercion.ofFields shape optional (fields.filterMap (Run.kept (src.answer conv)))).type := by
  rw [fitsFields_iff, Ty.fields, Ty.optional, hform]
  refine .inr fun e he => .inr ?_
  have hfield : ∀ found, (Coercion.ofFields shape optional found).type.field? e.1 =
      (NameMap.find? found e.1).map Coercion.type := fun found => NameMap.find?_map _ found e.1
  have hkept : NameMap.find? (fields.filterMap (Run.kept (src.answer conv))) e.1 = src.answer conv e :=
    NameMap.find?_kept hfields he
  rw [hfield, hkept, Ty.answer]
  cases hactual : src.field? e.1 with
  | some actual => exact .inl ⟨_, rfl, hfound e he actual hactual⟩
  | none => exact .inr ⟨rfl, by simp [hmissing e he hactual]⟩

/-- What a value is converted to fits where it was wanted. -/
theorem fits_of_converts (hd : dst.InOrder) (h : c.Converts f src dst r) : c.Fits dst r.type := by
  induction h with
  | accepted _ h => exact fits_self (not_void_of_fits h).1
  | absent h | untyped h | plain h => exact fits_self fun hv => h.kinds (.inr (.inr (.inr (.inl hv))))
  | restricted _ _ _ _ ih => exact ih hd
  | @fields f src dst wanted shaped h hs hda hlazy hx shape optional fields hform _ _ conv _ hmissing ih =>
    have hw : wanted.isEager = true := Ty.isEager_iff.2 ⟨_, _, _, hform⟩
    have hwanted := inOrder_expansion hd hx
    have hfields : wanted.fields = fields := by rw [Ty.fields, hform]
    have hordered : NameMap.Ordered fields := hfields ▸ Ty.ordered_fields_of_form (Ty.Everywhere.here hwanted)
    rw [fits_iff_expansion hda hx hw (Ty.isEager_iff.2 ⟨_, _, _, rfl⟩)]
    refine ⟨by rw [Ty.kind_of_form hform]; rfl, fitsFields_ofFields hform hordered ?_ hmissing⟩
    intro e he actual hactual
    exact ih e he actual hactual (Ty.Everywhere.part hwanted (Ty.mem_parts_of_mem_fields (hfields ▸ he)))

/-- **Coercion is sound**: what a value has become is accepted where it was wanted. -/
theorem accepts_of_coerce (hd : dst.InOrder) (h : (c.coerce f src dst).outcome = .ok (some r)) :
    (c.accepts dst r.type).outcome = .ok true :=
  accepts_eq_true_iff.2 (fits_of_converts hd (converts_of_coerce h))

/-- A checker with the usual rules that audits what it builds. -/
def auditor : Checker := ⟨.standard, none, true⟩

/-- An enum of texts. -/
def namedTexts : Ty := .ofForm (.enum .string (.ofList [(Bytes.ofString "x", .text (Bytes.ofString "y"))]))

/-- A record of an enum of texts and a flag. -/
def namedRecord : Ty :=
  .ofForm (.aggregate .record false
    [(Bytes.ofString "A", namedTexts), (Bytes.ofString "B", .ofForm (Ty.bareForm .boolean))])

/-- A table on demand of a number and a color, both of which may be missing. -/
def demandedNumbers : Ty :=
  .ofForm (.lazy true true (some ⟨Bytes.ofString "t", true,
    [(Bytes.ofString "A", .host (some (.ofForm (Ty.bareForm .number)))),
     (Bytes.ofString "C", .bound (.ofForm (Ty.bareForm .color)))], none⟩))

theorem answers_auditor : auditor.Answers := by
  intro look token hlook
  cases hlook

/-- Texts are no numbers. -/
theorem refuses_text : auditor.Refuses (.ofForm (Ty.bareForm .number)) (.ofForm (Ty.bareForm .string)) := by
  rw [Refuses, accepts, check]
  rfl

/-- Texts become numbers, not safely. -/
theorem converts_text (f : CoercionFlags) :
    auditor.Converts f (.ofForm (Ty.bareForm .string)) (.ofForm (Ty.bareForm .number))
      ⟨false, .ofForm (Ty.bareForm .number)⟩ :=
  .plain ⟨by decide, refuses_text, by decide⟩ (by decide) (by decide) (by decide) rfl rfl rfl

/-- Enums of texts are no numbers. -/
theorem refuses_namedTexts : auditor.Refuses (.ofForm (Ty.bareForm .number)) namedTexts := by
  refine (fits_or_refuses answers_auditor (by decide +kernel) (by decide +kernel)).resolve_left fun hfits => ?_
  obtain ⟨base, hbase, hfits⟩ := (fits_restricted_iff ⟨by decide, by decide, by decide⟩ rfl (by decide)).1 hfits
  cases hbase
  exact refuses_text.not_fits hfits

/-- Enums of texts become numbers, not safely. -/
theorem converts_namedTexts (f : CoercionFlags) :
    auditor.Converts f namedTexts (.ofForm (Ty.bareForm .number)) ⟨false, .ofForm (Ty.bareForm .number)⟩ :=
  .restricted ⟨by decide, refuses_namedTexts, by decide⟩ rfl rfl (converts_text f)

/-- A record becomes a table of one row, of what it has of the fields on demand. -/
theorem converts_namedRecord :
    auditor.Converts ⟨true, true⟩ namedRecord demandedNumbers
      ⟨false, .ofForm (.aggregate .table true [(Bytes.ofString "A", .ofForm (Ty.bareForm .number))])⟩ := by
  have hrefused : auditor.Refuses demandedNumbers namedRecord := by
    rw [Refuses, accepts, check]
    rfl
  refine .fields ⟨by decide, hrefused, by decide⟩ rfl rfl rfl rfl rfl rfl (by decide)
    (fun _ => ⟨false, .ofForm (Ty.bareForm .number)⟩) ?_ (by decide)
  refine List.forall_mem_cons.2 ⟨?_, List.forall_mem_singleton.2 ?_⟩
  · intro actual hactual
    cases hactual
    exact converts_namedTexts _
  · intro actual hactual
    cases hactual

theorem accepts_of_coerce_namedRecord :
    demandedNumbers.InOrder ∧ (auditor.coerce ⟨true, true⟩ namedRecord demandedNumbers).outcome =
        .ok (some ⟨false, .ofForm (.aggregate .table true [(Bytes.ofString "A", .ofForm (Ty.bareForm .number))])⟩) ∧
      (auditor.accepts demandedNumbers
        (.ofForm (.aggregate .table true [(Bytes.ofString "A", .ofForm (Ty.bareForm .number))]))).outcome =
        .ok true := by
  have hd : demandedNumbers.InOrder := by decide +kernel
  have h := coerce_of_converts converts_namedRecord
  exact ⟨hd, h, accepts_of_coerce hd h⟩

end Checker

end FormulaTypes
