import FormulaTypes.Proofs.Checker.Ends
import FormulaTypes.Proofs.NameMap

/-!
# Acceptance is transitive

Under exact rules acceptance is transitive between types without lazy parts, deferred parts, option set values,
optional aggregates and tokens of opaque types (`accepts_trans`). Between such types the rules come down to kinds
(`Rules.takes`) and fields (`fits_iff_takes`), enums aside, and both are transitive (`Rules.takes_trans`,
`fitsFields_trans`).
-/

namespace FormulaTypes

/-- Everywhere in the type all fields are at hand and required, and what is opaque has no token. -/
def Ty.Unmarked (t : Ty) : Prop :=
  t.Everywhere fun u => u.isLazy = false ∧ u.kind ≠ .deferred ∧ u.kind ≠ .optionSetValue ∧ u.optional = false ∧
    (u.kind.isOpaque = true → u.token = none)

instance (t : Ty) : Decidable t.Unmarked := Ty.Everywhere.decidable t

/-! ## Kinds -/

namespace Rules

variable {r : Rules} {k l m : Kind}

/-- Acceptance between kinds of types without tokens. -/
def takes (r : Rules) (k l : Kind) : Bool := r.kindAccepts k l || (k = .polymorphic && l = .record)

/-- Apart from plain kinds, and from records where all records are meant, a kind takes only itself. -/
theorem takes_iff_eq (hk : k.isPrimitive = false) (hp : k ≠ .polymorphic) : r.takes k l = true ↔ k = l := by
  simp only [takes, hp, decide_false, Bool.false_and, Bool.or_false]
  constructor
  · intro h
    rcases kindAccepts_cases h with rfl | ⟨hk', -⟩
    · rfl
    · rw [hk] at hk'
      cases hk'
  · rintro rfl
    simp [kindAccepts]

/-- Where all records are meant, records are taken. -/
theorem takes_polymorphic_iff : r.takes .polymorphic l = true ↔ l = .polymorphic ∨ l = .record := by
  simp only [takes, decide_true, Bool.true_and, Bool.or_eq_true, decide_eq_true_eq]
  refine or_congr_left ?_
  constructor
  · intro h
    rcases kindAccepts_cases h with rfl | ⟨hk, -⟩
    · rfl
    · cases hk
  · rintro rfl
    simp [kindAccepts]

/-- What is taken is transitive. -/
theorem takes_trans (hkl : r.takes k l = true) (hlm : r.takes l m = true) : r.takes k m = true := by
  by_cases hp : k = .polymorphic
  · subst hp
    rw [takes_polymorphic_iff] at hkl
    rcases hkl with rfl | rfl
    · exact hlm
    · rw [takes_iff_eq rfl (by decide)] at hlm
      exact takes_polymorphic_iff.2 (.inr hlm.symm)
  · have hkl' : r.kindAccepts k l = true := by
      simpa [takes, hp] using hkl
    have hl : l ≠ .polymorphic := by
      rintro rfl
      rcases kindAccepts_cases hkl' with h | ⟨-, h⟩
      · exact hp h
      · cases h
    have hlm' : r.kindAccepts l m = true := by
      simpa [takes, hl] using hlm
    rw [takes, kindAccepts_trans hkl' hlm', Bool.true_or]

/-! ## Literals -/

/-- Literals that are in a source are in what accepts it along two steps. -/
theorem valuesAccept_trans (hr : r.exact = true) {us vs ws : Values} (huv : r.valuesAccept us vs = true)
    (hvw : r.valuesAccept vs ws = true) : r.valuesAccept us ws = true := by
  rw [valuesAccept_iff hr] at huv hvw ⊢
  intro e he
  obtain ⟨value, hvalue, hsame⟩ := hvw e he
  obtain ⟨value', hvalue', hsame'⟩ := huv _ (NameMap.mem_of_find? hvalue)
  exact ⟨value', hvalue', Literal.same_trans hsame' hsame⟩

end Rules

namespace Checker

variable {c : Checker} {x y z : Ty}

/-! ## Types that are compared by kinds and fields -/

/-- Without tokens, types without fields take what their kinds do. -/
theorem leafAccepts_iff_takes (hx : x.kind.isOpaque = true → x.token = none) :
    c.leafAccepts x y = true ↔ c.rules.takes x.kind y.kind = true := by
  unfold leafAccepts
  split
  · next hp =>
    rw [hp, Rules.takes_polymorphic_iff]
    simp
  · next hp =>
    split
    · next ho =>
      have hprimitive : x.kind.isPrimitive = false := by
        cases hk : x.kind <;> first | rfl | (rw [hk] at ho; cases ho)
      rw [Rules.takes_iff_eq hprimitive hp, hx ho]
      simp [Token.compatible, eq_comm]
    · simp [Rules.takes, hp]

/-- Between types without marks the source has a kind that is taken, and the fields that are asked for. -/
theorem fits_iff_takes (hx : x.Unmarked) (hy : y.Unmarked) (hc : Compared x y) (he : y.kind ≠ .enum) :
    c.Fits x y ↔ c.rules.takes x.kind y.kind = true ∧ (x.isEager = true → c.FitsFields x y) := by
  obtain ⟨hxl, -, -, -, hxt⟩ := Ty.Everywhere.here hx
  obtain ⟨hyl, -, hyv, -, -⟩ := Ty.Everywhere.here hy
  have heager : (∀ shape optional fields, x.form ≠ .aggregate shape optional fields) → x.isEager = false := by
    intro hne
    rw [Bool.eq_false_iff]
    intro h
    obtain ⟨shape, optional, fields, hform⟩ := Ty.isEager_iff.1 h
    exact hne _ _ _ hform
  cases hf : x.form with
  | leaf k hk =>
    have hne := heager (by simp [hf])
    simp only [hne, Bool.false_eq_true, false_implies, and_true]
    by_cases hentity : x.kind = .dataEntity
    · have htoken : x.token = none := hxt (by rw [hentity]; rfl)
      rw [fits_entity_iff hc he (Ty.kind_eq_dataEntity_iff.1 hentity), hentity,
        Rules.takes_iff_eq rfl (by decide), htoken]
      constructor
      · rintro (⟨hk, -⟩ | ⟨-, token, _, _, _, htoken, -⟩)
        · exact hk.symm
        · cases htoken
      · intro hk
        exact .inl ⟨hk.symm, rfl⟩
    · rw [fits_plain_iff hc he hentity (.inl ⟨k, hk, hf⟩)]
      exact leafAccepts_iff_takes hxt
  | enum superkind values =>
    have hk : x.kind = .enum := Ty.kind_of_form hf
    rw [fits_enum_iff hc hf, hk, Rules.takes_iff_eq rfl (by decide)]
    simp [he, Ne.symm he]
  | choices choice fields =>
    have hne := heager (by simp [hf])
    have hentity : x.kind ≠ .dataEntity := by
      rw [Ty.kind_of_form hf, Form.kind]
      cases choice <;> decide
    simp only [hne, Bool.false_eq_true, false_implies, and_true]
    rw [fits_plain_iff hc he hentity (.inr ⟨choice, fields, hf⟩)]
    exact leafAccepts_iff_takes hxt
  | aggregate shape optional fields =>
    have hkind : x.kind.isPrimitive = false ∧ x.kind ≠ .polymorphic := by
      rw [Ty.kind_of_form hf, Form.kind]
      cases shape <;> decide
    have hxe : x.isEager = true := Ty.isEager_iff.2 ⟨_, _, _, hf⟩
    rw [fits_aggregate_iff hc he hf, fitsAggregate_iff, Rules.takes_iff_eq hkind.1 hkind.2]
    simp [hyl, hyv, hxe]
  | lazy isTable optional provider =>
    rw [Ty.isLazy_iff.2 ⟨_, _, _, hf⟩] at hxl
    cases hxl

/-- Only `error` accepts `error`. -/
theorem kind_eq_error_of_fits (hx : x.Unmarked) (hy : y.Unmarked) (h : c.Fits x y) (he : y.kind = .error) :
    x.kind = .error := by
  by_contra hne
  obtain ⟨hxv, -⟩ := not_void_of_fits h
  have hc : Compared x y := ⟨by simp [hxv, he], by simp [hne, he], by simp [he]⟩
  rw [fits_iff_takes hx hy hc (by simp [he]), he] at h
  by_cases hp : x.kind = .polymorphic
  · rw [hp, Rules.takes_polymorphic_iff] at h
    simp at h
  · have := h.1
    simp only [Rules.takes, hp, decide_false, Bool.false_and, Bool.or_false] at this
    rcases Rules.kindAccepts_cases this with h | ⟨-, h⟩
    · exact hne h
    · cases h

/-! ## Fields -/

theorem fieldsAlike_trans {fs gs hs : List (Bytes × Ty)} (h : FieldsAlike fs gs) (k : FieldsAlike gs hs) :
    FieldsAlike fs hs := by
  induction h generalizing hs with
  | nil => exact k
  | cons he _ ih =>
    cases k with
    | cons hf hr => exact .cons ⟨he.1.trans hf.1, Ty.equal_trans he.2 hf.2⟩ (ih hr)

/-- Under exact rules fields that are required are alike, or each of them is `error` or fits what the source has. -/
theorem fitsFields_required_iff (hr : c.rules.exact = true) (hx : x.optional = false) (hy : y.isLazy = false) :
    c.FitsFields x y ↔ FieldsAlike x.fields y.fields ∨
      ∀ e ∈ x.fields, e.2.kind = .error ∨ ∃ actual, y.field? e.1 = some actual ∧ c.Fits e.2 actual := by
  rw [fitsFields_iff]
  simp [hr, hx, hy]

/-- Fields fit along two steps if the types in them do. -/
theorem fitsFields_trans (hr : c.rules.exact = true) (hx : x.Unmarked) (hy : y.Unmarked) (hz : z.Sound)
    (hye : y.isEager = true) (hze : z.isEager = true)
    (ih : ∀ e ∈ x.fields, ∀ v ∈ y.parts, ∀ w ∈ z.parts, c.Fits e.2 v → c.Fits v w → c.Fits e.2 w)
    (hxy : c.FitsFields x y) (hyz : c.FitsFields y z) : c.FitsFields x z := by
  obtain ⟨-, -, -, hxo, -⟩ := Ty.Everywhere.here hx
  obtain ⟨hyl, -, -, hyo, -⟩ := Ty.Everywhere.here hy
  have hzl := (Ty.of_isEager hze).2
  rw [fitsFields_required_iff hr hxo hyl] at hxy
  rw [fitsFields_required_iff hr hyo hzl] at hyz
  rw [fitsFields_required_iff hr hxo hzl]
  rcases hxy with hxy | hxy
  · rcases hyz with hyz | hyz
    · exact .inl (fieldsAlike_trans hxy hyz)
    · refine .inr fun e he => ?_
      obtain ⟨f, hf, hname, hequal⟩ := NameMap.exists_mem_of_forall₂ hxy he
      have hkind := Ty.kind_eq_of_equal hequal
      refine (hyz f hf).imp (fun herror => hkind.trans herror) ?_
      rintro ⟨actual, hfound, hfits⟩
      -- a field that fits is not `void`, so that its equal fits it
      have hef : c.Fits e.2 f.2 := fits_of_equal hequal (by rw [hkind]; exact (not_void_of_fits hfits).1)
      have hactual := Ty.mem_parts_of_field? hfound
      exact ⟨actual, hname ▸ hfound, ih e he f.2 (Ty.mem_parts_of_mem_fields hf) actual hactual hef hfits⟩
  · refine .inr fun e he => ?_
    rcases hxy e he with herror | ⟨middle, hmiddle, hfits⟩
    · exact .inl herror
    have hparts := Ty.mem_parts_of_field? hmiddle
    have hmem : (e.1, middle) ∈ y.fields := by
      rw [Ty.field?_of_isEager hye] at hmiddle
      exact NameMap.mem_of_find? hmiddle
    rcases hyz with hyz | hyz
    · obtain ⟨g, hg, hname, hequal⟩ := NameMap.exists_mem_of_forall₂ hyz hmem
      have hfound : z.field? e.1 = some g.2 := by
        rw [Ty.field?_of_isEager hze]
        exact NameMap.find?_of_mem hz.ordered_fields (hname ▸ hg)
      have hmg : c.Fits middle g.2 := fits_of_equal hequal (not_void_of_fits hfits).2
      exact .inr ⟨g.2, hfound, ih e he middle hparts g.2 (Ty.mem_parts_of_mem_fields hg) hfits hmg⟩
    · rcases hyz _ hmem with herror | ⟨actual, hfound, hfits'⟩
      · have hxe : e.2.Unmarked := Ty.Everywhere.part hx (Ty.mem_parts_of_mem_fields he)
        exact .inl (kind_eq_error_of_fits hxe (Ty.Everywhere.part hy hparts) hfits herror)
      · have hactual := Ty.mem_parts_of_field? hfound
        exact .inr ⟨actual, hfound, ih e he middle hparts actual hactual hfits hfits'⟩

/-! ## Enums -/

/-- Plain kinds have types without marks. -/
theorem unmarked_ofKind {k : Kind} {base : Ty} (hk : k.isPrimitive = true) (h : Ty.ofKind k = .ok base) :
    base.Sound ∧ base.Unmarked := by
  cases k <;> first | (cases h; exact ⟨by decide +kernel, by decide +kernel⟩) | cases hk

/-- What accepts an enum accepts every enum that the enum accepts. -/
theorem fits_trans_enum (hr : c.rules.exact = true) (hcxy : Compared x y) (hcyz : Compared y z) (hcxz : Compared x z)
    (hye : y.kind = .enum) (hxy : c.Fits x y) (hyz : c.Fits y z) : c.Fits x z := by
  obtain ⟨superkind, values, hform⟩ := Ty.kind_eq_enum_iff.1 hye
  obtain ⟨hze, hsuper, hvalues⟩ := (fits_enum_iff hcyz hform).1 hyz
  have hysuper : y.superkind = superkind := by rw [Ty.superkind, hform]
  have hyvalues : y.values = values := by rw [Ty.values, hform]
  by_cases hxe : x.kind = .enum
  · obtain ⟨superkind', values', hform'⟩ := Ty.kind_eq_enum_iff.1 hxe
    rw [fits_enum_iff hcxy hform', hysuper, hyvalues] at hxy
    rw [fits_enum_iff hcxz hform']
    exact ⟨hze, hxy.2.1.trans hsuper, Rules.valuesAccept_trans hr hxy.2.2 hvalues⟩
  · rw [fits_restricted_iff hcxy hye hxe, hysuper, hsuper] at hxy
    rw [fits_restricted_iff hcxz hze hxe]
    exact hxy

/-! ## All types -/

/-- Aggregates take aggregates of their own kind. -/
theorem kind_eq_of_takes (hx : x.isEager = true) (h : c.rules.takes x.kind y.kind = true) :
    x.kind = y.kind ∧ y.isEager = true := by
  have hkind : x.kind.isPrimitive = false ∧ x.kind ≠ .polymorphic := by
    obtain ⟨shape, optional, fields, hform⟩ := Ty.isEager_iff.1 hx
    rw [Ty.kind_of_form hform, Form.kind]
    cases shape <;> decide
  have heq := (Rules.takes_iff_eq hkind.1 hkind.2).1 h
  refine ⟨heq, ?_⟩
  rw [Ty.isEager, ← heq]
  exact hx

/-- What fits along two steps fits. -/
theorem fits_trans (hr : c.rules.exact = true) (hx : x.Sound ∧ x.Unmarked) (hy : y.Sound ∧ y.Unmarked)
    (hz : z.Sound ∧ z.Unmarked) (hxy : c.Fits x y) (hyz : c.Fits y z) : c.Fits x z := by
  induction z using Ty.weightInduction generalizing x y with
  | step z ih =>
    obtain ⟨hxv, hyv⟩ := not_void_of_fits hxy
    obtain ⟨-, hzv⟩ := not_void_of_fits hyz
    obtain ⟨-, hyd, -⟩ := Ty.Everywhere.here hy.2
    obtain ⟨-, hzd, -⟩ := Ty.Everywhere.here hz.2
    by_cases hfree : z.kind = .objNull ∨ x.kind = .error ∨ z.kind = .unknown
    · exact fits_of_free hxv hzv hfree
    have hxe : x.kind ≠ .error := fun he => hfree (.inr (.inl he))
    have hye : y.kind ≠ .error := fun he => hxe (kind_eq_error_of_fits hx.2 hy.2 hxy he)
    have hcxz : Compared x z := ⟨not_or.2 ⟨hxv, hzv⟩, hfree, hzd⟩
    have hcyz : Compared y z :=
      ⟨not_or.2 ⟨hyv, hzv⟩, not_or.2 ⟨fun h => hfree (.inl h), not_or.2 ⟨hye, fun h => hfree (.inr (.inr h))⟩⟩, hzd⟩
    by_cases hyenum : y.kind = .enum
    · have hcxy : Compared x y := ⟨not_or.2 ⟨hxv, hyv⟩, by simp [hyenum, hxe], hyd⟩
      exact fits_trans_enum hr hcxy hcyz hcxz hyenum hxy hyz
    by_cases hzenum : z.kind = .enum
    · obtain ⟨base, hbase, hfits⟩ := (fits_restricted_iff hcyz hzenum hyenum).1 hyz
      have hprimitive := Ty.superkind_isPrimitive hz.1.valid hzenum
      have hxb := ih base (weight_ofKind_lt hzenum hbase) hx hy (unmarked_ofKind hprimitive hbase) hxy hfits
      refine (fits_restricted_iff hcxz hzenum fun hxenum => ?_).2 ⟨base, hbase, hxb⟩
      obtain ⟨hkind, hne⟩ := kind_ofKind hbase
      obtain ⟨superkind, values, hform⟩ := Ty.kind_eq_enum_iff.1 hxenum
      obtain ⟨hcxb, -⟩ := compared_of_isConcrete ⟨hxv, hxe⟩
        (hkind ▸ Kind.isConcrete_of_isPrimitive hprimitive : base.kind.isConcrete = true)
      exact hne (hkind.symm.trans ((fits_enum_iff hcxb hform).1 hxb).1)
    · rw [fits_iff_takes hy.2 hz.2 hcyz hzenum] at hyz
      -- what `objNull` and `unknown` accept fits everywhere, so that the type in the middle is neither
      have hmiddle : ∀ k : Kind, k.isPrimitive = false → k ≠ .polymorphic → z.kind ≠ k → y.kind ≠ k := by
        rintro k hk hp hne rfl
        exact hne ((Rules.takes_iff_eq hk hp).1 hyz.1).symm
      have hcxy : Compared x y :=
        ⟨not_or.2 ⟨hxv, hyv⟩, not_or.2 ⟨hmiddle _ rfl (by decide) fun h => hfree (.inl h),
          not_or.2 ⟨hxe, hmiddle _ rfl (by decide) fun h => hfree (.inr (.inr h))⟩⟩, hyd⟩
      rw [fits_iff_takes hx.2 hy.2 hcxy hyenum] at hxy
      rw [fits_iff_takes hx.2 hz.2 hcxz hzenum]
      refine ⟨Rules.takes_trans hxy.1 hyz.1, fun hxeager => ?_⟩
      have hyeager := (kind_eq_of_takes hxeager hxy.1).2
      have hzeager := (kind_eq_of_takes hyeager hyz.1).2
      refine fitsFields_trans hr hx.2 hy.2 hz.1 hyeager hzeager ?_ (hxy.2 hxeager) (hyz.2 hyeager)
      intro e he v hv w hw hev hvw
      have hep := Ty.mem_parts_of_mem_fields he
      exact ih w (Ty.weight_lt_of_mem_parts hw) ⟨hx.1.part hep, Ty.Everywhere.part hx.2 hep⟩
        ⟨hy.1.part hv, Ty.Everywhere.part hy.2 hv⟩ ⟨hz.1.part hw, Ty.Everywhere.part hz.2 hw⟩ hev hvw

/-- Acceptance is transitive. -/
theorem accepts_trans (hr : c.rules.exact = true) (hx : x.Sound) (hy : y.Sound) (hz : z.Sound) (hxu : x.Unmarked)
    (hyu : y.Unmarked) (hzu : z.Unmarked) (hxy : (c.accepts x y).outcome = .ok true)
    (hyz : (c.accepts y z).outcome = .ok true) : (c.accepts x z).outcome = .ok true := by
  rw [accepts_eq_true_iff] at hxy hyz ⊢
  exact fits_trans hr ⟨hx, hxu⟩ ⟨hy, hyu⟩ ⟨hz, hzu⟩ hxy hyz

/-- Exact rules under which numbers accept dates and times, without a directory. -/
def legacyExact : Checker := ⟨⟨true, true, false⟩, none, false⟩

/-- A record of a number, any record and a field that is not compared. -/
def widestRecord : Ty :=
  .ofForm (.aggregate .record false
    [(Bytes.ofString "A", .ofForm (Ty.bareForm .number)), (Bytes.ofString "B", .ofForm (Ty.bareForm .polymorphic)),
     (Bytes.ofString "C", .error)])

/-- A record of an amount and an empty record. -/
def middleRecord : Ty :=
  .ofForm (.aggregate .record false
    [(Bytes.ofString "A", .ofForm (Ty.bareForm .currency)),
     (Bytes.ofString "B", .ofForm (.aggregate .record false []))])

/-- A record of an enum of amounts and a record of `void`. -/
def narrowestRecord : Ty :=
  .ofForm (.aggregate .record false
    [(Bytes.ofString "A", .ofForm (.enum .currency (.ofList [(Bytes.ofString "x", .number ⟨0⟩)]))),
     (Bytes.ofString "B", .ofForm (.aggregate .record false [(Bytes.ofString "D", .ofForm (Ty.bareForm .void))]))])

theorem fits_widestRecord : legacyExact.Fits widestRecord middleRecord := by
  refine (fits_iff_takes (by decide +kernel) (by decide +kernel) ⟨by decide, by decide, by decide⟩ (by decide)).2
    ⟨by decide, fun _ => (fitsFields_required_iff rfl rfl rfl).2 (.inr ?_)⟩
  refine List.forall_mem_cons.2 ⟨.inr ⟨_, rfl, ?_⟩, List.forall_mem_cons.2 ⟨.inr ⟨_, rfl, ?_⟩, ?_⟩⟩
  · exact (fits_iff_takes (by decide +kernel) (by decide +kernel) ⟨by decide, by decide, by decide⟩ (by decide)).2
      ⟨by decide, fun heager => by cases heager⟩
  · exact (fits_iff_takes (by decide +kernel) (by decide +kernel) ⟨by decide, by decide, by decide⟩ (by decide)).2
      ⟨by decide, fun heager => by cases heager⟩
  · exact List.forall_mem_singleton.2 (.inl rfl)

theorem fits_middleRecord : legacyExact.Fits middleRecord narrowestRecord := by
  refine (fits_iff_takes (by decide +kernel) (by decide +kernel) ⟨by decide, by decide, by decide⟩ (by decide)).2
    ⟨by decide, fun _ => (fitsFields_required_iff rfl rfl rfl).2 (.inr ?_)⟩
  refine List.forall_mem_cons.2 ⟨.inr ⟨_, rfl, ?_⟩, List.forall_mem_singleton.2 (.inr ⟨_, rfl, ?_⟩)⟩
  · exact (fits_restricted_iff ⟨by decide, by decide, by decide⟩ rfl (by decide)).2
      ⟨_, rfl, fits_of_equal (Ty.equal_self _) (by decide)⟩
  · exact (fits_iff_takes (by decide +kernel) (by decide +kernel) ⟨by decide, by decide, by decide⟩ (by decide)).2
      ⟨by decide, fun _ => (fitsFields_required_iff rfl rfl rfl).2 (.inr fun e he => by cases he)⟩

theorem accepts_trans_records :
    legacyExact.rules.exact = true ∧ (widestRecord.Sound ∧ middleRecord.Sound ∧ narrowestRecord.Sound) ∧
      (widestRecord.Unmarked ∧ middleRecord.Unmarked ∧ narrowestRecord.Unmarked) ∧
      (legacyExact.accepts widestRecord middleRecord).outcome = .ok true ∧
      (legacyExact.accepts middleRecord narrowestRecord).outcome = .ok true ∧
      (legacyExact.accepts widestRecord narrowestRecord).outcome = .ok true := by
  have hx : widestRecord.Sound := by decide +kernel
  have hy : middleRecord.Sound := by decide +kernel
  have hz : narrowestRecord.Sound := by decide +kernel
  have hxu : widestRecord.Unmarked := by decide +kernel
  have hyu : middleRecord.Unmarked := by decide +kernel
  have hzu : narrowestRecord.Unmarked := by decide +kernel
  have hxy := accepts_eq_true_iff.2 fits_widestRecord
  have hyz := accepts_eq_true_iff.2 fits_middleRecord
  exact ⟨rfl, ⟨hx, hy, hz⟩, ⟨hxu, hyu, hzu⟩, hxy, hyz, accepts_trans rfl hx hy hz hxu hyu hzu hxy hyz⟩

end Checker

end FormulaTypes
