import FormulaTypes.Proofs.Checker.Agreement
import FormulaTypes.Proofs.Checker.Comparison
import FormulaTypes.Proofs.Checker.UpperBound

/-!
# Short cuts

A check compares the field maps of two aggregates, and the literals of two enums, as a whole before it looks at them one
by one. `Checker.fullCheck` has the rules of the check without these two short cuts: it walks along all fields and all
literals.

Both checks are the same run (`check_eq_fullCheck`), with the same mismatch, the same faults and the same demands, as
long as there is no `void` in the destination. A short cut is taken only where all fields are equal; then each of them
is accepted by itself, without a demand (`check_of_equal`). Only `void` does not accept itself, so that an aggregate
with such a field is accepted by a short cut and by nothing else.
-/

namespace FormulaTypes

namespace Checker

/-- The first mismatch of a source with its destination, without short cuts. -/
def fullCheck (c : Checker) (dst src : Ty) : Run (Option Mismatch) :=
  c.checkBy false dst src (fun expected actual _lighter => c.fullCheck expected actual)
    (fun entity => c.entityBy false entity src fun expected actual _lighter => c.fullCheck expected actual)
termination_by src.weight
decreasing_by
  · exact _lighter
  · exact _lighter

/-- Whether a value of the source type may be used where the destination type is expected, without short cuts. -/
def fullAccepts (c : Checker) (dst src : Ty) : Run Bool := do
  let mismatch ← c.fullCheck dst src
  return mismatch.isNone

end Checker

/-! ## Literals -/

/-- Equal literals are accepted one by one. -/
theorem Rules.valuesBy_eq_each (r : Rules) (short : Bool) (vs ws : Values) :
    r.valuesBy short vs ws = r.eachValueAccepted vs ws := by
  rw [valuesBy, Bool.or_eq_right_iff_imp, Bool.and_eq_true, Values.equal_eq_agree, Values.agree_iff, eachValueAccepted,
    List.all_eq_true]
  rintro ⟨-, h⟩ e he
  obtain ⟨f, hf, hname, hsame⟩ := NameMap.exists_mem_of_forall₂ h.flip he
  rw [← hname, OrderedMap.find?, NameMap.find?_of_mem vs.ordered hf]
  exact hsame

/-- Types that are not lazy demand nothing. -/
theorem Ty.demand_of_not_lazy {t : Ty} (h : t.isLazy = false) (name : Bytes) : t.demand name = [] := by
  obtain ⟨form, token, sources⟩ := t
  cases form with
  | lazy isTable => cases isTable <;> cases h
  | leaf | enum | choices | aggregate => rfl

namespace Checker

variable {c : Checker} {dst src seen : Ty}

/-! ## Fields -/

/-- A field that is equal to what the source has there is accepted at once. -/
theorem checkField_of_equal {name : Bytes} {expected actual : Ty} (hs : src.isLazy = false)
    (hf : src.field? name = some actual) (h : expected.equal actual = true) (hv : expected.kind ≠ .void) :
    c.checkField dst src name expected = accept := by
  rw [checkField_eq, Ty.demand_of_not_lazy hs, hf, ite_eq_left_iff]
  intro _
  dsimp only
  rw [check_of_equal h hv]
  rfl

/-- A walk along equal fields finds nothing and demands nothing. -/
theorem firstAlong_of_fieldsAlike (hd : NameMap.Ordered dst.fields) (hv : ∀ e ∈ dst.fields, e.2.kind ≠ .void)
    (hs : src.isLazy = false) (h : FieldsAlike dst.fields src.fields) :
    Run.firstAlong dst.fields (c.checkField dst src) = accept := by
  have hnames := NameMap.names_eq_of_forall₂ (fun _ _ he => he.1) h
  refine Run.firstAlong_eq_pure fun e he => ?_
  obtain ⟨f, hf, hname, hequal⟩ := NameMap.exists_mem_of_forall₂ h he
  refine checkField_of_equal hs ?_ hequal (hv e he)
  rw [Ty.field?_of_not_lazy hs, hname]
  exact NameMap.find?_of_mem (NameMap.ordered_of_names_eq hd hnames.symm) hf

/-- If the checks of the fields are the same, so are the walks along them, with the short cut and without. -/
theorem fieldsBy_eq_full (hd : NameMap.Ordered dst.fields) (hv : ∀ e ∈ dst.fields, e.2.kind ≠ .void)
    (h : ∀ e ∈ dst.fields, ∀ actual, src.field? e.1 = some actual → c.check e.2 actual = c.fullCheck e.2 actual) :
    (c.fieldsBy true dst src fun expected actual _ => c.check expected actual) =
      c.fieldsBy false dst src fun expected actual _ => c.fullCheck expected actual := by
  have hfull : (c.fieldsBy false dst src fun expected actual _ => c.fullCheck expected actual) =
      c.fieldsBy false dst src fun expected actual _ => c.check expected actual :=
    fieldsBy_congr fun e he actual _ hfound => (h e he actual hfound).symm
  have hwalk : (c.fieldsBy false dst src fun expected actual _ => c.check expected actual) =
      Run.firstAlong dst.fields (c.checkField dst src) := rfl
  rw [hfull, hwalk, ← checkFields, checkFields_eq, ite_eq_right_iff]
  intro hshort
  simp only [Bool.and_eq_true, Bool.not_eq_true', fieldsEqual_iff] at hshort
  exact (firstAlong_of_fieldsAlike hd hv hshort.1 hshort.2).symm

/-! ## Checks -/

/-- No type in the entities that a checker looks up is `void`. -/
def EntitiesVoidless (c : Checker) : Prop :=
  ∀ look token entity, c.entities = some look → look token = .ok (some entity) → ∀ e ∈ entity.fields, e.2.Voidless

/-- What is seen in the place of a type without `void` has no `void` in its fields. -/
theorem Seen.voidless_fields (hc : c.EntitiesVoidless) (hd : dst.Voidless) (h : c.Seen dst seen) :
    ∀ e ∈ seen.fields, e.2.Voidless := by
  intro e he
  cases h with
  | self => exact Ty.Everywhere.part hd (Ty.mem_parts_of_mem_fields he)
  | expansion _ hx => exact Ty.Everywhere.part hd (mem_parts_of_expansion? hx (Ty.mem_parts_of_mem_fields he))
  | table hk hx =>
    obtain ⟨token, look, entity, -, hlook, hentity, rfl⟩ := (expandEntity_eq_some_iff hk).1 hx
    exact hc look token entity hlook hentity e he
  | record hk hx hr =>
    obtain ⟨token, look, entity, -, hlook, hentity, rfl⟩ := (expandEntity_eq_some_iff hk).1 hx
    rw [Ty.withSources, toRecord_table] at hr
    cases hr
    exact hc look token entity hlook hentity e he

/-- The check without short cuts is the same run. -/
theorem check_eq_fullCheck (hv : c.EntitiesVoidless) (hd : dst.InOrder) (hvd : dst.Voidless) :
    c.check dst src = c.fullCheck dst src := by
  induction src using Ty.weightInduction generalizing dst with
  | step src ih =>
    have hfields : c.SameAlongFields true false dst src (fun expected actual _ => c.check expected actual)
        (fun expected actual _ => c.fullCheck expected actual) := by
      intro seen h _
      have hin := h.inOrder hd
      have hvoidless := h.voidless_fields hv hvd
      refine fieldsBy_eq_full (Ty.ordered_fields_of_form (Ty.Everywhere.here hin))
        (fun e he => (hvoidless e he).here) fun e he actual hfound => ?_
      have hpart := Ty.Everywhere.part hin (Ty.mem_parts_of_mem_fields he)
      exact ih actual (Ty.weight_lt_of_field? hfound) hpart (hvoidless e he)
    rw [check, fullCheck]
    refine checkBy_congr (fun base hlt _ _ => ih base hlt hd hvd) (fun _ _ _ => ?_) hfields
      fun hk _ => entityBy_congr hk hfields
    rw [Rules.valuesBy_eq_each, Rules.valuesBy_eq_each]

/-- **The short cuts of acceptance decide nothing**: without them acceptance is the same run, with the same answer or
fault and the same demands, if there is no `void` in the destination and in what the directory knows. -/
theorem accepts_eq_fullAccepts (hv : c.EntitiesVoidless) (hd : dst.Sound) (hvd : dst.Voidless) :
    c.accepts dst src = c.fullAccepts dst src := by
  rw [accepts, fullAccepts, check_eq_fullCheck hv hd.inOrder hvd]

/-- An enum of one number. -/
def numberEnum (number : Number.Double) : Ty := .ofForm (.enum .number (.ofList [(Bytes.ofString "x", .number number)]))

/-- A record of an entity and of an enum. -/
def entityAndEnum : Ty :=
  .ofForm (.aggregate .record false
    [(Bytes.ofString "A", knownEntity), (Bytes.ofString "B", numberEnum ⟨0x7FF8000000000000⟩)])

/-- A record of what the entity stands for and of another enum. -/
def recordAndEnum : Ty :=
  .ofForm (.aggregate .record false
    [(Bytes.ofString "A", .ofForm (.aggregate .record false numberAndFlag.fields)),
     (Bytes.ofString "B", numberEnum ⟨0x7FF8000000000001⟩)])

/-- Short cuts are taken at the fields of the entity and at the literals. -/
theorem fits_recordAndEnum : entityChecker.Fits entityAndEnum recordAndEnum := by
  have hentity : entityChecker.Fits knownEntity (.ofForm (.aggregate .record false numberAndFlag.fields)) := by
    have hcompared : Compared knownEntity (.ofForm (.aggregate .record false numberAndFlag.fields)) :=
      ⟨by decide, by decide, by decide⟩
    rw [fits_entity_iff hcompared (by decide) rfl]
    refine .inr ⟨rfl, _, _, _, ∅, rfl, rfl, rfl, ?_⟩
    rw [fitsAggregate_iff, fitsFields_iff]
    exact .inr ⟨rfl, .inr ⟨rfl, .inl ⟨rfl, List.forall₂_same.2 fun e _ => ⟨rfl, Ty.equal_self e.2⟩⟩⟩⟩
  refine fits_eager rfl rfl rfl fun e he => ?_
  rcases List.mem_cons.1 he with rfl | he
  · exact ⟨_, rfl, hentity⟩
  · obtain rfl := List.mem_singleton.1 he
    exact ⟨_, rfl, fits_of_equal (by decide +kernel) (by decide)⟩

theorem accepts_eq_fullAccepts_recordAndEnum :
    entityChecker.EntitiesVoidless ∧ entityAndEnum.Sound ∧ entityAndEnum.Voidless ∧
      entityChecker.accepts entityAndEnum recordAndEnum = entityChecker.fullAccepts entityAndEnum recordAndEnum ∧
      (entityChecker.fullAccepts entityAndEnum recordAndEnum).outcome = .ok true := by
  have hv : entityChecker.EntitiesVoidless := by
    rintro look token entity ⟨⟩ ⟨⟩
    decide +kernel
  have hd : entityAndEnum.Sound := by decide +kernel
  have hvd : entityAndEnum.Voidless := by decide +kernel
  have h : entityChecker.accepts entityAndEnum recordAndEnum = entityChecker.fullAccepts entityAndEnum recordAndEnum :=
    accepts_eq_fullAccepts hv hd hvd
  exact ⟨hv, hd, hvd, h, h ▸ accepts_eq_true_iff.2 fits_recordAndEnum⟩

end Checker

end FormulaTypes
