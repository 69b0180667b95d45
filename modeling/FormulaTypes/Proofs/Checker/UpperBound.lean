import FormulaTypes.Proofs.Checker.Joins

/-!
# Supertypes accept what they are made of

Every supertype accepts both types that it was made of, if no plain kind is kept from accepting another (`v1`) and
neither type has `void` or one of the dates and times that their superkind does not accept
(`supertype_accepts`). The proof has one case for each rule of `Joins`:

* fields of a shared aggregate fit, field by field (`fits_shared`);
* what fits an expansion fits the lazy type (`fits_of_expansion`);
* a kind at or above another one in the hierarchy accepts it (`fits_of_above`).
-/

namespace FormulaTypes

/-- No type in the type is `void`. -/
def Ty.Voidless (t : Ty) : Prop := t.Everywhere fun u => u.kind ≠ .void

instance (t : Ty) : Decidable t.Voidless := Ty.Everywhere.decidable t

/-- No type in the type is `void`, or is or restricts a kind of dates and times that its superkind does not accept. -/
def Ty.Placed (t : Ty) : Prop :=
  t.Everywhere fun u => u.kind ≠ .void ∧ u.kind.isLooseDate = false ∧ u.superkind.isLooseDate = false

instance (t : Ty) : Decidable t.Placed := Ty.Everywhere.decidable t

theorem Ty.Placed.voidless {t : Ty} (h : t.Placed) : t.Voidless := Everywhere.imp h fun _ hu => hu.1

theorem Ty.Placed.not_void {t : Ty} (h : t.Placed) : t.kind ≠ .void := (Everywhere.here h).1

namespace Checker

variable {c : Checker} {dst src : Ty}

/-! ## Aggregates -/

/-- An eager aggregate fits one of its kind if it has what each field asks for. -/
theorem fits_eager (hd : dst.isEager = true) (hs : src.isEager = true) (hk : dst.kind = src.kind)
    (h : ∀ e ∈ dst.fields, ∃ actual, src.field? e.1 = some actual ∧ c.Fits e.2 actual) : c.Fits dst src := by
  obtain ⟨hsa, hsl⟩ := Ty.of_isEager hs
  obtain ⟨hc, hse⟩ := compared_of_isAggregate (Ty.of_isEager hd).1 hsa
  obtain ⟨shape, optional, fields, hform⟩ := Ty.isEager_iff.1 hd
  rw [fits_aggregate_iff hc hse hform, fitsAggregate_iff]
  refine .inr ⟨hsl, .inr ⟨hk, fitsFields_iff.2 (.inr fun e he => ?_)⟩⟩
  exact .inr (.inl (h e he))

/-- What two eager aggregates share accepts both of them. -/
theorem fits_shared {a b : Ty} {shape : Shape} {optional optional' : Bool} {fields : List (Bytes × Ty)}
    {token : Option Token} {sup : Bytes × Ty → Ty} (ha : a.Sound) (hb : b.isEager = true)
    (hform : a.form = .aggregate shape optional fields) (hk : a.kind = b.kind)
    (h : ∀ e ∈ a.fields, ∀ f, NameMap.find? b.fields e.1 = some f → c.Fits (sup e) e.2 ∧ c.Fits (sup e) f) :
    c.Fits (.ofForm₂ (.aggregate shape optional' (a.sharedFields b sup)) token a b) a ∧
      c.Fits (.ofForm₂ (.aggregate shape optional' (a.sharedFields b sup)) token a b) b := by
  have hea : a.isEager = true := Ty.isEager_iff.2 ⟨_, _, _, hform⟩
  have hes : (Ty.ofForm₂ (.aggregate shape optional' (a.sharedFields b sup)) token a b).isEager = true :=
    Ty.isEager_iff.2 ⟨_, _, _, rfl⟩
  have hka : (Ty.ofForm₂ (.aggregate shape optional' (a.sharedFields b sup)) token a b).kind = a.kind :=
    (Ty.kind_of_form hform).symm
  constructor
  · refine fits_eager hes hea hka fun g hg => ?_
    obtain ⟨e, he, f, hf, rfl, -⟩ := Ty.mem_sharedFields_iff.1 hg
    exact ⟨e.2, by rw [Ty.field?_of_isEager hea, NameMap.find?_of_mem ha.ordered_fields he], (h e he f hf).1⟩
  · refine fits_eager hes hb (hka.trans hk) fun g hg => ?_
    obtain ⟨e, he, f, hf, rfl, -⟩ := Ty.mem_sharedFields_iff.1 hg
    exact ⟨f, by rw [Ty.field?_of_isEager hb, hf], (h e he f hf).2⟩

/-! ## Expansions -/

/-- The join of two eager aggregates is `error`, or an aggregate of the kind of both. -/
theorem joins_eager {a b s : Ty} (h : c.Joins a b s) (ha : a.isEager = true) (hb : b.isEager = true) :
    s.kind = .error ∨ (s.isEager = true ∧ s.kind = a.kind ∧ s.kind = b.kind) := by
  cases h with
  | equal h =>
    refine .inr ⟨?_, Ty.kind_withSourcesOf a b, (Ty.kind_withSourcesOf a b).trans (Ty.kind_eq_of_equal h)⟩
    rw [Ty.isEager, Ty.kind_withSourcesOf]
    exact ha
  | apart => exact .inl rfl
  | shared _ _ hform hk =>
    exact .inr ⟨Ty.isEager_iff.2 ⟨_, _, _, rfl⟩, (Ty.kind_of_form hform).symm, (Ty.kind_of_form hform).symm.trans hk⟩
  | either h | left h | right h | expanded h | closed h | kinds h =>
    exact absurd (by rw [ha, hb]; rfl) h.uneager

/-- What holds everywhere in an aggregate, and of eager aggregates, holds everywhere in its expansion. -/
theorem everywhere_expansion {P : Ty → Prop} {t expanded : Ty} (ht : t.Sound) (hp : t.Everywhere P)
    (ha : t.isAggregate = true) (hx : t.expansion? = some expanded) (heager : ∀ u : Ty, u.isEager = true → P u) :
    expanded.Everywhere P :=
  .intro (heager _ (isEager_expansion ht ha hx)) fun _ hpart => hp.part (mem_parts_of_expansion? hx hpart)

/-- Expansions of placed types are placed. -/
theorem placed_expansion {t expanded : Ty} (ht : t.Sound) (hp : t.Placed) (ha : t.isAggregate = true)
    (hx : t.expansion? = some expanded) : expanded.Placed := by
  refine everywhere_expansion ht hp ha hx fun u hu => ?_
  obtain ⟨shape, optional, fields, hform⟩ := Ty.isEager_iff.1 hu
  rw [Ty.superkind, hform, Ty.kind_of_form hform]
  cases shape <;> simp [Form.kind, Shape.kind, Kind.isLooseDate]

/-- The fields that fit those of the expansion fit those of the lazy type, though these are never compared at once. -/
theorem fitsFields_of_expansion {t expanded : Ty} (ht : t.Sound) (hv : t.Voidless) (hl : t.isLazy = true)
    (hx : t.expansion? = some expanded) (h : c.FitsFields dst expanded) : c.FitsFields dst t := by
  obtain ⟨heager, -, hfield⟩ := lazy_expansion ht hl hx
  rw [fitsFields_iff] at h ⊢
  right
  rcases h with ⟨-, halike⟩ | h
  · intro e he
    obtain ⟨f, hf, hname, hequal⟩ := NameMap.exists_mem_of_forall₂ halike he
    have hfound : t.field? e.1 = some f.2 := by
      rw [hfield, Ty.field?_of_isEager heager, hname, NameMap.find?_of_mem (sound_expansion ht hx).ordered_fields hf]
    have hvoid : e.2.kind ≠ .void := by
      rw [Ty.kind_eq_of_equal hequal]
      exact (Ty.Everywhere.field hv hfound).here
    exact .inr (.inl ⟨f.2, hfound, fits_of_equal hequal hvoid⟩)
  · intro e he
    rw [hfield]
    exact h e he

/-- What accepts the expansion of a lazy type, and is an aggregate of its kind, accepts the lazy type. -/
theorem fits_of_expansion {t expanded : Ty} (ht : t.Sound) (hv : t.Voidless) (hx : t.expansion? = some expanded)
    (hd : dst.isEager = true) (hk : dst.kind = expanded.kind) (h : c.Fits dst expanded) : c.Fits dst t := by
  cases hl : t.isLazy with
  | false =>
    rw [expansion_of_not_lazy hl hx] at h
    exact h
  | true =>
    obtain ⟨heager, hshape, -⟩ := lazy_expansion ht hl hx
    obtain ⟨hxa, hxl⟩ := Ty.of_isEager heager
    have hda := (Ty.of_isEager hd).1
    obtain ⟨hcx, hxe⟩ := compared_of_isAggregate hda hxa
    obtain ⟨hct, hte⟩ := compared_of_isAggregate hda (Ty.isAggregate_of_isLazy hl)
    obtain ⟨shape, optional, fields, hform⟩ := Ty.isEager_iff.1 hd
    have hvalue : expanded.kind ≠ .optionSetValue := Ty.kind_ne_of_isAggregate hxa rfl
    have hfields : c.FitsFields dst expanded := by
      rw [fits_aggregate_iff hcx hxe hform, fitsAggregate_iff] at h
      simpa [hxl, hvalue, hk] using h
    rw [fits_aggregate_iff hct hte hform, fitsAggregate_iff]
    exact .inl ⟨hl, hk ▸ hshape, fitsFields_of_expansion ht hv hl hx hfields⟩

/-! ## Kinds -/

/-- A type without fields, literals and token, of a kind that may have them or not. -/
structure Bare (s : Ty) : Prop where
  token : s.token = none
  form : (∃ k hk, s.form = .leaf k hk) ∨ ∃ choice fields, s.form = .choices choice fields

/-- Types of a kind without further parts are bare, aggregates aside. -/
theorem bare_ofKind {k : Kind} {t : Ty} (h : Ty.ofKind k = .ok t) (ha : k.isAggregate = false) : Bare t := by
  cases k <;> simp [Ty.ofKind, Ty.plainForm?, Kind.isLeaf, Kind.isValid] at h <;> subst h <;>
    first
    | exact ⟨rfl, .inl ⟨_, _, rfl⟩⟩
    | exact ⟨rfl, .inr ⟨_, _, rfl⟩⟩
    | cases ha

theorem Bare.withSourcesOf {s : Ty} (h : Bare s) (u : Ty) : Bare (s.withSourcesOf u) := by
  rw [Ty.withSourcesOf]
  exact ⟨(Ty.token_withSources s _).trans h.token, by rw [Ty.form_withSources]; exact h.form⟩

/-- Bare types accept the types of their own kind, whatever token these have. -/
theorem Bare.fits_of_isOpaque (h : Bare dst) (ho : dst.kind.isOpaque = true) (hk : src.kind = dst.kind) :
    c.Fits dst src := by
  have hd : dst.kind ≠ .void ∧ dst.kind ≠ .error := by
    constructor <;> intro hk <;> rw [hk] at ho <;> cases ho
  obtain ⟨hc, hs⟩ := compared_of_isConcrete hd (hk ▸ Kind.isConcrete_of_isOpaque ho)
  by_cases hentity : dst.kind = .dataEntity
  · rw [fits_entity_iff hc hs (Ty.kind_eq_dataEntity_iff.1 hentity), h.token]
    exact .inl ⟨hk.trans hentity, rfl⟩
  · rw [fits_plain_iff hc hs hentity h.form, leafAccepts, h.token]
    split
    · next hp => simp [hk, hp]
    · simp [hk, Token.compatible]

/-- Bare types that are not opaque accept the types of the kinds that their kind accepts. -/
theorem Bare.fits_of_kindAccepts (h : Bare dst) (ho : dst.kind.isOpaque = false) (hc : Compared dst src)
    (hs : src.kind ≠ .enum) (hk : c.rules.kindAccepts dst.kind src.kind = true) : c.Fits dst src := by
  have hne : ∀ k : Kind, k.isOpaque = true → dst.kind ≠ k := by
    rintro k hk rfl
    rw [ho] at hk
    cases hk
  rw [fits_plain_iff hc hs (hne _ rfl) h.form, leafAccepts, if_neg (hne _ rfl), if_neg (by simp [ho])]
  exact hk

/-- The kind from which a type climbs is no loose date if the type is placed. -/
theorem isLooseDate_chainKind {t : Ty} (h : t.Placed) : t.chainKind.isLooseDate = false := by
  obtain ⟨-, hkind, hsuper⟩ := Ty.Everywhere.here h
  rw [Ty.chainKind]
  split
  · exact hsuper
  · exact hkind

theorem chainKind_ne_void {t : Ty} (ht : t.Sound) (h : t.kind ≠ .void) : t.chainKind ≠ .void := by
  rw [Ty.chainKind]
  split
  · next he =>
    intro hv
    have := Ty.superkind_isPrimitive ht.valid he
    rw [hv] at this
    cases this
  · exact h

/-- A kind at or above another one accepts it, unless it is `error`. -/
theorem kindAccepts_of_above (hv : c.rules.v1 = false) {k above : Kind} (hk : k.isLooseDate = false)
    (h : above = k ∨ above ∈ k.ancestors) : above = .error ∨ c.rules.kindAccepts above k = true := by
  rcases h with rfl | h
  · exact .inr (by simp [Rules.kindAccepts])
  · exact (Kind.widens_of_mem_ancestors hk h).imp_right fun hw => by simp [Rules.kindAccepts, hv, hw]

theorem not_void_of_above (hs : src.Sound) (hp : src.Placed) {above : Kind}
    (h : above = src.chainKind ∨ above ∈ src.chainKind.ancestors) : above ≠ .void := by
  rintro rfl
  rcases h with h | h
  · exact chainKind_ne_void hs hp.not_void h.symm
  · rcases Kind.widens_of_mem_ancestors (isLooseDate_chainKind hp) h with h | h <;> cases h

/-- Bare types accept the enums of the kinds that their kind accepts. -/
theorem Bare.fits_enum (h : Bare dst) (ho : dst.kind.isOpaque = false) (hs : src.Sound) (hc : Compared dst src)
    (he : src.kind = .enum) (hk : c.rules.kindAccepts dst.kind src.superkind = true) : c.Fits dst src := by
  have hprimitive := Ty.superkind_isPrimitive hs.valid he
  have hne : dst.kind ≠ .enum := by
    intro hk
    obtain ⟨superkind, values, hform⟩ := Ty.kind_eq_enum_iff.1 hk
    rcases h.form with ⟨k, hk, hform'⟩ | ⟨choice, fields, hform'⟩ <;> rw [hform] at hform' <;> cases hform'
  obtain ⟨base, hbase, -⟩ := Ty.exists_ofKind hprimitive
  have hkind := (kind_ofKind hbase).1
  have hd : dst.kind ≠ .void ∧ dst.kind ≠ .error :=
    ⟨fun hv => hc.void (.inl hv), fun herror => hc.free (.inr (.inl herror))⟩
  obtain ⟨hcbase, hbe⟩ := compared_of_isConcrete hd
    (hkind ▸ Kind.isConcrete_of_isPrimitive hprimitive : base.kind.isConcrete = true)
  rw [fits_restricted_iff hc he hne]
  exact ⟨base, hbase, h.fits_of_kindAccepts ho hcbase hbe (hkind ▸ hk)⟩

/-- Bare types of a kind at or above that of a type accept it. -/
theorem fits_of_above (hv : c.rules.v1 = false) (hs : src.Sound) (hp : src.Placed) (hd : Bare dst)
    (ho : dst.kind.isOpaque = true → src.kind = dst.kind)
    (h : dst.kind = src.chainKind ∨ dst.kind ∈ src.chainKind.ancestors) : c.Fits dst src := by
  have hdst := not_void_of_above hs hp h
  rcases free_or_deferred_or_compared hdst hp.not_void with hfree | ⟨hdeferred, herror⟩ | hc
  · exact fits_of_free hdst hp.not_void hfree
  · rw [fits_deferred_iff ⟨hdst, herror⟩ hdeferred]
    intro hunknown
    rw [Ty.chainKind, hdeferred, if_neg (by decide), hunknown] at h
    revert h
    decide
  · have haccepts := (kindAccepts_of_above hv (isLooseDate_chainKind hp) h).resolve_left
      fun he => hc.free (.inr (.inl he))
    rw [Ty.chainKind] at haccepts
    cases hsealed : dst.kind.isOpaque with
    | true => exact hd.fits_of_isOpaque hsealed (ho hsealed)
    | false =>
      by_cases he : src.kind = .enum
      · rw [if_pos he] at haccepts
        exact hd.fits_enum hsealed hs hc he haccepts
      · rw [if_neg he] at haccepts
        exact hd.fits_of_kindAccepts hsealed hc he haccepts

/-! ## All joins -/

variable {a b s : Ty}

/-- Everything fits `error`, `void` aside. -/
theorem fits_of_kind_error (hd : dst.kind = .error) (hs : src.kind ≠ .void) : c.Fits dst src :=
  fits_of_free (by rw [hd]; decide) hs (.inr (.inl hd))

/-- Where the hierarchy joins two types stands above both. -/
theorem fits_joinKinds (hv : c.rules.v1 = false) (ha : a.Sound) (hb : b.Sound) (hpa : a.Placed) (hpb : b.Placed)
    (h : (joinKinds a b).outcome = .ok s) : c.Fits s a ∧ c.Fits s b := by
  unfold joinKinds at h
  dsimp only at h
  split at h
  · cases h
    exact ⟨fits_of_kind_error rfl hpa.not_void, fits_of_kind_error rfl hpb.not_void⟩
  · next hk =>
    simp only [not_or, Bool.not_eq_true] at hk
    obtain ⟨haggregate, -, hsealed⟩ := hk
    obtain ⟨t, ht, hs⟩ := Run.bind_eq_ok_iff.1 h
    obtain ⟨hkind, -⟩ := kind_ofKind ht
    cases hs
    have hbare := ((bare_ofKind ht haggregate).withSourcesOf a).withSourcesOf b
    have hkind' : ((t.withSourcesOf a).withSourcesOf b).kind = a.chainKind.join b.chainKind := by
      rw [Ty.kind_withSourcesOf, Ty.kind_withSourcesOf, hkind]
    rcases Kind.join_cases a.chainKind b.chainKind with he | ⟨hja, hjb⟩
    · rw [he] at hkind'
      exact ⟨fits_of_kind_error hkind' hpa.not_void, fits_of_kind_error hkind' hpb.not_void⟩
    · rw [← hkind'] at hja hjb hsealed
      have hboth := fun ho => not_not.1 (not_and.1 hsealed ho)
      exact ⟨fits_of_above hv ha hpa hbare (fun ho => (hboth ho).1) hja,
        fits_of_above hv hb hpb hbare (fun ho => (hboth ho).2) hjb⟩

/-- A type that accepts another one accepts both, with the sources of the other one added. -/
theorem fits_withSourcesOf (h : c.Fits a b) (ha : a.kind ≠ .void) :
    c.Fits (a.withSourcesOf b) a ∧ c.Fits (a.withSourcesOf b) b :=
  ⟨fits_of_equal (Ty.equal_withSourcesOf a b) (by rwa [Ty.kind_withSourcesOf]),
    fits_of_form_eq (Ty.form_withSources a _).symm (Ty.token_withSources a _).symm h⟩

/-- What stands for two types that accept each other accepts both. -/
theorem fits_mutualBound (hab : c.Fits a b) (hba : c.Fits b a) (h : (mutualBound a b).outcome = .ok s) :
    c.Fits s a ∧ c.Fits s b := by
  obtain ⟨ha, hb⟩ := not_void_of_fits hab
  unfold mutualBound at h
  split at h
  · next hsealed =>
    obtain ⟨-, hkind, ho⟩ := hsealed
    obtain ⟨t, ht, hs⟩ := Run.bind_eq_ok_iff.1 h
    cases hs
    have hbare := ((bare_ofKind ht (Kind.of_isOpaque ho).2.1).withSourcesOf a).withSourcesOf b
    have hkind' : ((t.withSourcesOf a).withSourcesOf b).kind = a.kind := by
      rw [Ty.kind_withSourcesOf, Ty.kind_withSourcesOf, (kind_ofKind ht).1]
    rw [← hkind'] at ho
    exact ⟨hbare.fits_of_isOpaque ho hkind'.symm, hbare.fits_of_isOpaque ho (hkind.symm.trans hkind'.symm)⟩
  · split at h <;> cases h
    · exact fits_withSourcesOf hab ha
    · exact (fits_withSourcesOf hba hb).symm

/-- Joins accept both types that they were made of. -/
theorem fits_of_joins (hv : c.rules.v1 = false) (ha : a.Sound) (hb : b.Sound) (hpa : a.Placed) (hpb : b.Placed)
    (h : c.Joins a b s) : c.exactly.Fits s a ∧ c.exactly.Fits s b := by
  induction h with
  | @equal a b h =>
    exact fits_withSourcesOf (fits_of_equal h hpa.not_void) hpa.not_void
  | apart | closed => exact ⟨fits_of_kind_error rfl hpa.not_void, fits_of_kind_error rfl hpb.not_void⟩
  | @shared a b _ heager shape optional fields hform hk sup _ ih =>
    refine fits_shared ha heager hform hk fun e he f hf => ?_
    have hea := Ty.mem_parts_of_mem_fields he
    have hfb := Ty.mem_parts_of_mem_fields (NameMap.mem_of_find? hf)
    exact ih e he f hf (ha.part hea) (hb.part hfb) (Ty.Everywhere.part hpa hea) (Ty.Everywhere.part hpb hfb)
  | either _ hab hba hs => exact fits_mutualBound hab hba hs
  | left _ hab => exact fits_withSourcesOf hab hpa.not_void
  | right _ _ hba => exact (fits_withSourcesOf hba hpb.not_void).symm
  | @expanded a b ea eb s _ _ _ _ hx hea heb _ hs ih =>
    simp only [bothExpand, Bool.and_eq_true] at hx
    obtain ⟨⟨⟨⟨haa, hba⟩, -⟩, -⟩, -⟩ := hx
    rcases joins_eager hs (isEager_expansion ha haa hea) (isEager_expansion hb hba heb) with he | ⟨heager, hka, hkb⟩
    · exact ⟨fits_of_kind_error he hpa.not_void, fits_of_kind_error he hpb.not_void⟩
    · obtain ⟨hsa, hsb⟩ := ih (sound_expansion ha hea) (sound_expansion hb heb) (placed_expansion ha hpa haa hea)
        (placed_expansion hb hpb hba heb)
      exact ⟨fits_of_expansion ha hpa.voidless hea heager hka hsa,
        fits_of_expansion hb hpb.voidless heb heager hkb hsb⟩
  | kinds _ _ _ _ hs => exact fits_joinKinds (c := c.exactly) hv ha hb hpa hpb hs

/-- **Supertypes are upper bounds**: the supertype of two types accepts both of them, and it comes out if look-ups
end. -/
theorem supertype_accepts (hv : c.rules.v1 = false) (ha : a.Sound) (hb : b.Sound) (hpa : a.Placed) (hpb : b.Placed) :
    (c.Answers → (c.supertype a b).Ends) ∧
      ∀ s, (c.supertype a b).outcome = .ok s →
        (c.exactly.accepts s a).outcome = .ok true ∧ (c.exactly.accepts s b).outcome = .ok true := by
  refine ⟨fun hc => ?_, fun s hs => ?_⟩
  · obtain ⟨s, hs⟩ := exists_joins hc ha hb
    exact ⟨s, supertype_of_joins hs⟩
  · obtain ⟨hsa, hsb⟩ := fits_of_joins hv ha hb hpa hpb (joins_of_supertype ha hb hs)
    exact ⟨accepts_eq_true_iff.2 hsa, accepts_eq_true_iff.2 hsb⟩

/-- An entity of a single column. -/
def singleColumn : Entity where
  fields := [(Bytes.ofString "A", .ofForm (Ty.bareForm .string))]
  sources := []
  ordered := by decide
  inOrder := by decide +kernel

/-- A checker that is not exact and knows one entity, of a single column, under every token. -/
def singleEntity : Checker where
  rules := ⟨false, true, false⟩
  entities := some fun _ => .ok (some singleColumn)
  audit := true

/-- A table on demand of an amount, an enum of numbers, a flag and an entity. -/
def demandedTable : Ty :=
  .ofForm (.lazy true false (some ⟨Bytes.ofString "t", true,
    [(Bytes.ofString "A", .host (some (.ofForm (Ty.bareForm .currency)))),
     (Bytes.ofString "B", .bound (.ofForm (.enum .number (.ofList [(Bytes.ofString "x", .number ⟨0⟩)])))),
     (Bytes.ofString "C", .host (some (.ofForm (Ty.bareForm .boolean)))),
     (Bytes.ofString "D", .host (some (.node (Ty.bareForm .dataEntity) (some ⟨Bytes.ofString "1", none⟩) ∅)))], none⟩))

/-- A table that has a number, a number, a text and another entity in the same columns. -/
def eagerTable : Ty :=
  .ofForm (.aggregate .table true
    [(Bytes.ofString "A", .ofForm (Ty.bareForm .number)),
     (Bytes.ofString "B", .ofForm (Ty.bareForm .number)),
     (Bytes.ofString "C", .ofForm (Ty.bareForm .string)),
     (Bytes.ofString "D", .node (Ty.bareForm .dataEntity) (some ⟨Bytes.ofString "2", none⟩) ∅)])

theorem answers_singleEntity : singleEntity.Answers :=
  answers_of_same rfl (List.forall_mem_singleton.2 (Ty.Sound.provided (by decide +kernel)))

theorem supertype_accepts_tables :
    singleEntity.rules.v1 = false ∧ demandedTable.Sound ∧ eagerTable.Sound ∧
      demandedTable.Placed ∧ eagerTable.Placed ∧
      ∃ s, (singleEntity.supertype demandedTable eagerTable).outcome = .ok s ∧
        (singleEntity.exactly.accepts s demandedTable).outcome = .ok true ∧
        (singleEntity.exactly.accepts s eagerTable).outcome = .ok true := by
  have ha : demandedTable.Sound := by decide +kernel
  have hb : eagerTable.Sound := by decide +kernel
  have hpa : demandedTable.Placed := by decide +kernel
  have hpb : eagerTable.Placed := by decide +kernel
  obtain ⟨hends, haccepts⟩ := supertype_accepts (c := singleEntity) rfl ha hb hpa hpb
  obtain ⟨s, hs⟩ := hends answers_singleEntity
  exact ⟨rfl, ha, hb, hpa, hpb, s, hs, haccepts s hs⟩

end Checker

end FormulaTypes
