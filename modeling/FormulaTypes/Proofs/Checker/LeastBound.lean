import FormulaTypes.Proofs.Checker.UpperBound

/-!
# Supertypes are least among simple types

Between types made of plain values, untyped data, nothing, errors and eager aggregates, acceptance comes down to kinds
and fields (`fits_simple_iff`). Whatever accepts two such types accepts their supertype (`exists_supertype_least`), if
numbers do not accept dates and, unless no plain kind accepts another, there are no blobs: `image` and `media` accept
them and do not stand above them. The proof has one case for each rule of `Joins`:

* a field that was dropped has no bound but `error`, since what accepts both fields accepts their supertype;
* kinds that are joined in the hierarchy are below every kind that accepts both (`Rules.kindAccepts_join`).
-/

namespace FormulaTypes

/-! ## Kinds -/

/-- Plain values, untyped data, nothing, errors and eager aggregates. Blobs count if no plain kind accepts another. -/
def Kind.isSimple (v1 : Bool) : Kind → Bool
  | .blob => v1
  | .untypedObject | .error | .objNull => true
  | k => k.isPrimitive || (k.isAggregate && !k.isLazy)

theorem Kind.of_isSimple {v1 : Bool} {k : Kind} (h : k.isSimple v1 = true) :
    k ≠ .void ∧ k ≠ .unknown ∧ k ≠ .deferred ∧ k ≠ .enum ∧ k.isLazy = false ∧ k.isOpaque = false := by
  cases k <;> first | decide | cases h

/-- What stands above a simple kind is simple. -/
theorem Kind.isSimple_of_mem_ancestors {v1 : Bool} {k above : Kind} (hk : k.isSimple v1 = true)
    (h : above ∈ k.ancestors) : above.isSimple v1 = true := by
  have hall : k.isSimple v1 = true → (k.ancestors.all fun x => x.isSimple v1) = true := by
    cases v1 <;> cases k <;> first | decide | exact fun h => by cases h
  exact List.all_eq_true.1 (hall hk) above h

/-- The join of simple kinds is simple. -/
theorem Kind.isSimple_join {v1 : Bool} {k l : Kind} (hk : k.isSimple v1 = true) : (k.join l).isSimple v1 = true := by
  rcases join_cases k l with he | ⟨ha | ha, -⟩
  · rw [he]
    rfl
  · rwa [ha]
  · exact isSimple_of_mem_ancestors hk ha

/-- The kinds at or below a plain one, blobs aside, have their joins there. -/
theorem Kind.join_of_widens {u k l : Kind} (hk : k.isSimple false = true) (hl : l.isSimple false = true)
    (huk : u = k ∨ u.widens k = true) (hul : u = l ∨ u.widens l = true) (hne : k ≠ l) :
    (k.join l).isPrimitive = true ∧ (u = k.join l ∨ u.widens (k.join l) = true) := by
  rcases huk with rfl | huk
  · have hul := hul.resolve_left hne
    unfold widens at hul
    split at hul <;> first | decide | exact absurd hl (by decide) | exact absurd hul (by decide)
  · unfold widens at huk
    split at huk
    case h_15 => cases huk
    all_goals
      first
      | exact absurd hk (by decide)
      | cases l <;> first | decide | exact absurd hl Bool.false_ne_true | exact absurd hul (by decide)

/-- A kind that accepts two simple kinds accepts their join. -/
theorem Rules.kindAccepts_join {r : Rules} {u k l : Kind} (hlegacy : r.legacyDateTime = false)
    (hk : k.isSimple r.v1 = true) (hl : l.isSimple r.v1 = true) (huk : r.kindAccepts u k = true)
    (hul : r.kindAccepts u l = true) (hne : k ≠ l) :
    (k.join l).isPrimitive = true ∧ r.kindAccepts u (k.join l) = true := by
  simp only [kindAccepts, hlegacy, Bool.and_false, Bool.or_false, Bool.or_eq_true, Bool.and_eq_true,
    Bool.not_eq_true', decide_eq_true_eq] at huk hul ⊢
  cases hv : r.v1 with
  | true =>
    simp only [hv, Bool.true_eq_false, false_and, or_false] at huk hul
    exact absurd (huk.symm.trans hul) hne
  | false =>
    simp only [hv, true_and] at huk hul hk hl ⊢
    exact Kind.join_of_widens hk hl huk hul hne

/-! ## Types -/

/-- The type is made of simple kinds. -/
def Ty.Simple (v1 : Bool) (t : Ty) : Prop := t.Everywhere fun u => u.kind.isSimple v1 = true

instance (v1 : Bool) (t : Ty) : Decidable (t.Simple v1) := Ty.Everywhere.decidable t

namespace Checker

variable {c : Checker} {v1 : Bool} {u a b s : Ty}

/-- A simple type is an eager aggregate or a leaf. -/
theorem eager_or_leaf (h : u.kind.isSimple v1 = true) :
    (∃ shape optional fields, u.form = .aggregate shape optional fields) ∨ ∃ k hk, u.form = .leaf k hk := by
  obtain ⟨-, -, -, henum, hlazy, hsealed⟩ := Kind.of_isSimple h
  cases ha : u.kind.isAggregate with
  | true => exact .inl (Ty.isEager_iff.1 (by rw [Ty.isEager, ha, hlazy]; rfl))
  | false =>
    obtain ⟨hk, hform⟩ := Ty.exists_leaf rfl henum hsealed ha
    exact .inr ⟨_, hk, hform⟩

/-- Between simple types the source has a kind that is accepted, and the fields that are asked for. -/
theorem fits_simple_iff (hu : u.kind.isSimple v1 = true) (ha : a.kind.isSimple v1 = true) :
    c.Fits u a ↔ a.kind = .objNull ∨ u.kind = .error ∨
      (c.rules.kindAccepts u.kind a.kind = true ∧ (u.isEager = true → c.FitsFields u a)) := by
  obtain ⟨huv, -, -, -, -, hsealed⟩ := Kind.of_isSimple hu
  obtain ⟨hav, hunknown, hdeferred, henum, hlazy, hasealed⟩ := Kind.of_isSimple ha
  have hne : ∀ k : Kind, k.isOpaque = true → u.kind ≠ k ∧ a.kind ≠ k := by
    intro k hk
    constructor
    · rintro rfl
      rw [hsealed] at hk
      cases hk
    · rintro rfl
      rw [hasealed] at hk
      cases hk
  by_cases hfree : a.kind = .objNull ∨ u.kind = .error
  · rw [← or_assoc]
    refine iff_of_true (fits_of_free huv hav ?_) (.inl hfree)
    exact hfree.imp_right .inl
  rw [← or_assoc, or_iff_right hfree]
  have hc : Compared u a := ⟨by simp [huv, hav], by simpa [hunknown] using hfree, hdeferred⟩
  rcases eager_or_leaf hu with ⟨shape, optional, fields, hform⟩ | ⟨k, hk, hform⟩
  · have heager : u.isEager = true := Ty.isEager_iff.2 ⟨_, _, _, hform⟩
    have hkinds : c.rules.kindAccepts u.kind a.kind = true ↔ u.kind = a.kind := by
      constructor
      · intro h
        refine (Rules.kindAccepts_cases h).resolve_right ?_
        rintro ⟨hprimitive, -⟩
        rw [Ty.kind_of_form hform] at hprimitive
        cases shape <;> cases hprimitive
      · intro h
        simp [Rules.kindAccepts, h]
    rw [fits_aggregate_iff hc henum hform, fitsAggregate_iff, hkinds, Ty.isLazy, hlazy]
    simp [heager, (hne .optionSetValue rfl).2]
  · have heager : u.isEager = false := by
      rw [Ty.isEager, Ty.kind_of_form hform, Form.kind, (Kind.not_isAggregate_of_isLeaf hk).1]
      rfl
    rw [fits_plain_iff hc henum (hne .dataEntity rfl).1 (.inl ⟨k, hk, hform⟩), leafAccepts,
      if_neg (hne .polymorphic rfl).1, if_neg (by simp [hsealed]), heager]
    simp

theorem kindAccepts_of_fits (hu : u.kind.isSimple v1 = true) (ha : a.kind.isSimple v1 = true)
    (herror : u.kind ≠ .error) (hnull : a.kind ≠ .objNull) (h : c.Fits u a) :
    c.rules.kindAccepts u.kind a.kind = true :=
  ((((fits_simple_iff hu ha).1 h).resolve_left hnull).resolve_left herror).1

/-- What accepts an eager aggregate is `error` or of its kind. -/
theorem kind_of_fits_eager (hu : u.kind.isSimple v1 = true) (ha : a.kind.isSimple v1 = true)
    (heager : a.isEager = true) (h : c.Fits u a) : u.kind = .error ∨ u.kind = a.kind := by
  have haggregate : a.kind.isAggregate = true := (Ty.of_isEager heager).1
  by_cases herror : u.kind = .error
  · exact .inl herror
  have hnull : a.kind ≠ .objNull := by
    intro hnull
    rw [hnull] at haggregate
    cases haggregate
  refine .inr ((Rules.kindAccepts_cases (kindAccepts_of_fits hu ha herror hnull h)).resolve_right ?_)
  rintro ⟨-, hprimitive⟩
  rw [(Kind.of_isPrimitive hprimitive).2.1] at haggregate
  cases haggregate

/-- Only `error` accepts `error`. -/
theorem not_fits_error (hu : u.kind.isSimple v1 = true) (hne : u.kind ≠ .error) (hs : s.kind = .error) :
    ¬ c.Fits u s := by
  rw [fits_simple_iff hu (by rw [hs]; rfl), hs]
  rintro (h | h | ⟨h, -⟩)
  · cases h
  · exact hne h
  · rcases Rules.kindAccepts_cases h with h | ⟨-, h⟩
    · exact hne h
    · cases h

/-- Under exact rules each field of a simple destination is `error`, fits, or may be missing. -/
theorem fitsFields_simple_iff (hexact : c.rules.exact = true) (hu : u.Simple v1) (ha : a.Sound)
    (he : a.isEager = true) :
    c.FitsFields u a ↔ ∀ e ∈ u.fields, e.2.kind = .error ∨
      (∃ actual, NameMap.find? a.fields e.1 = some actual ∧ c.Fits e.2 actual) ∨
      (NameMap.find? a.fields e.1 = none ∧ u.optional = true) := by
  rw [fitsFields_iff]
  simp only [Ty.field?_of_isEager he, hexact, Bool.true_and, Bool.not_eq_false']
  refine or_iff_right_of_imp ?_
  rintro ⟨-, halike⟩ e hmem
  obtain ⟨f, hf, hname, hequal⟩ := NameMap.exists_mem_of_forall₂ halike hmem
  have hsimple : e.2.Simple v1 := Ty.Everywhere.part hu (Ty.mem_parts_of_mem_fields hmem)
  have hvoid := (Kind.of_isSimple (Ty.Everywhere.here hsimple)).1
  exact .inr (.inl ⟨f.2, hname ▸ NameMap.find?_of_mem ha.ordered_fields hf, fits_of_equal hequal hvoid⟩)

/-- What accepts a simple type accepts it with further sources. -/
theorem fits_simple_withSourcesOf (hu : u.kind.isSimple v1 = true) (ha : a.kind.isSimple v1 = true) (h : c.Fits u a)
    (b : Ty) : c.Fits u (a.withSourcesOf b) := by
  have hkind := Ty.kind_withSourcesOf a b
  have hform : (a.withSourcesOf b).form = a.form := Ty.form_withSources a _
  rw [fits_simple_iff hu ha] at h
  rw [fits_simple_iff hu (hkind ▸ ha), hkind]
  refine h.imp_right (Or.imp_right (And.imp_right fun hfields heager => ?_))
  have hfields := hfields heager
  rw [fitsFields_iff] at hfields ⊢
  simpa only [Ty.field?, Ty.provider?, Ty.fields, Ty.isLazy, Ty.kind, hform] using hfields

/-! ## Joins -/

/-- Checks between simple types never ask the directory. -/
theorem walks_simple (c : Checker) (v1 : Bool) : c.Walks (Ty.Simple v1) (Ty.Simple v1) where
  dstPart h hpart := Ty.Everywhere.part h hpart
  srcPart h hpart := Ty.Everywhere.part h hpart
  base h he := absurd he (Kind.of_isSimple (Ty.Everywhere.here h)).2.2.2.1
  providers h _ hlazy _ := by
    have := (Kind.of_isSimple (Ty.Everywhere.here h)).2.2.2.2.1
    rw [Ty.isLazy, this] at hlazy
    cases hlazy
  entity h hk := by
    have := (Kind.of_isSimple (Ty.Everywhere.here h)).2.2.2.2.2
    rw [hk] at this
    cases this

theorem covers_simple (c : Checker) (v1 : Bool) : c.Covers fun t => t.Sound ∧ t.Simple v1 where
  sound h := h.1
  part h hpart := ⟨h.1.part hpart, Ty.Everywhere.part h.2 hpart⟩
  expansion h hx := by
    rw [expansion_of_not_lazy (Kind.of_isSimple (Ty.Everywhere.here h.2)).2.2.2.2.1 hx]
    exact h
  base h he := absurd he (Kind.of_isSimple (Ty.Everywhere.here h.2)).2.2.2.1
  decides h k := fits_or_refuses_of_ends ((c.walks_simple v1).ends_check h.2 k.2)
  decidesExactly h k := fits_or_refuses_of_ends ((c.exactly.walks_simple v1).ends_check h.2 k.2)

/-- What accepts two simple types that only the hierarchy joins accepts where they are joined. -/
theorem fits_joinKinds_least (hlegacy : c.rules.legacyDateTime = false) (hu : u.kind.isSimple c.rules.v1 = true)
    (ha : a.kind.isSimple c.rules.v1 = true) (hb : b.kind.isSimple c.rules.v1 = true) (h : Unshared a b)
    (hab : ¬ c.Fits a b) (hba : ¬ c.Fits b a) (hua : c.Fits u a) (hub : c.Fits u b)
    (hs : (joinKinds a b).outcome = .ok s) : c.Fits u s := by
  obtain ⟨hav, -, -, hae, -, -⟩ := Kind.of_isSimple ha
  obtain ⟨hbv, -, -, hbe, -, -⟩ := Kind.of_isSimple hb
  rw [joinKinds, Ty.chainKind, if_neg hae, Ty.chainKind, if_neg hbe] at hs
  by_cases hue : u.kind = .error
  · have hjoin := Kind.isSimple_join ha (l := b.kind)
    refine fits_of_kind_error hue ?_
    split at hs
    · cases hs
      decide
    · obtain ⟨t, ht, hs⟩ := Run.bind_eq_ok_iff.1 hs
      cases hs
      rw [Ty.kind_withSourcesOf, Ty.kind_withSourcesOf, (kind_ofKind ht).1]
      exact (Kind.of_isSimple hjoin).1
  -- nothing fits every type, so neither of the two is nothing
  have hna : a.kind ≠ .objNull := fun hnull => hba (fits_of_free hbv hav (.inl hnull))
  have hnb : b.kind ≠ .objNull := fun hnull => hab (fits_of_free hav hbv (.inl hnull))
  have hua := kindAccepts_of_fits hu ha hue hna hua
  have hub := kindAccepts_of_fits hu hb hue hnb hub
  have hne : a.kind ≠ b.kind := by
    intro hk
    refine hab ((fits_simple_iff ha hb).2 (.inr (.inr ⟨by simp [Rules.kindAccepts, hk], fun heager => ?_⟩)))
    refine absurd ?_ h.uneager
    have : b.isEager = true := by
      rw [Ty.isEager, ← hk]
      exact heager
    rw [heager, this]
    rfl
  obtain ⟨hprimitive, haccepts⟩ := Rules.kindAccepts_join hlegacy ha hb hua hub hne
  obtain ⟨-, haggregate, henum⟩ := Kind.of_isPrimitive hprimitive
  have hsealed := (Kind.of_isSimple (Kind.isSimple_join ha (l := b.kind))).2.2.2.2.2
  rw [if_neg (by simp [haggregate, henum, hsealed])] at hs
  obtain ⟨t, ht, hs⟩ := Run.bind_eq_ok_iff.1 hs
  cases hs
  have hkind : ((t.withSourcesOf a).withSourcesOf b).kind = a.kind.join b.kind := by
    rw [Ty.kind_withSourcesOf, Ty.kind_withSourcesOf, (kind_ofKind ht).1]
  rw [fits_simple_iff hu (by rw [hkind]; exact Kind.isSimple_join ha), hkind]
  refine .inr (.inr ⟨haccepts, fun heager => ?_⟩)
  have hplain : u.kind.isPrimitive = true := by
    rcases Rules.kindAccepts_cases haccepts with h | ⟨h, -⟩
    · rwa [h]
    · exact h
  have := (Ty.of_isEager heager).1
  rw [Ty.isAggregate, (Kind.of_isPrimitive hplain).2.1] at this
  cases this

/-- What asks for fields that two aggregates have asks for fields that they share, if this holds of each field. -/
theorem fitsFields_shared (hexact : c.rules.exact = true) (ha : a.Sound) (hsu : u.Simple v1) {shared : Ty}
    (heager : shared.isEager = true) {sup : Bytes × Ty → Ty} (hfields : shared.fields = a.sharedFields b sup)
    (ih : ∀ e ∈ a.fields, ∀ f, NameMap.find? b.fields e.1 = some f → ∀ v : Ty, v.Simple v1 → c.Fits v e.2 →
      c.Fits v f → c.Fits v (sup e))
    (hfa : ∀ e ∈ u.fields, e.2.kind = .error ∨
      (∃ actual, NameMap.find? a.fields e.1 = some actual ∧ c.Fits e.2 actual) ∨
      (NameMap.find? a.fields e.1 = none ∧ u.optional = true))
    (hfb : ∀ e ∈ u.fields, e.2.kind = .error ∨
      (∃ actual, NameMap.find? b.fields e.1 = some actual ∧ c.Fits e.2 actual) ∨
      (NameMap.find? b.fields e.1 = none ∧ u.optional = true)) : c.FitsFields u shared := by
  rw [fitsFields_iff]
  simp only [Ty.field?_of_isEager heager, hfields, Ty.find?_sharedFields ha.ordered_fields, hexact, Bool.true_and,
    Bool.not_eq_false']
  refine .inr fun e he => ?_
  by_cases herror : e.2.kind = .error
  · exact .inl herror
  right
  have hse : e.2.Simple v1 := Ty.Everywhere.part hsu (Ty.mem_parts_of_mem_fields he)
  rcases (hfa e he).resolve_left herror with ⟨fa, hfounda, hfitsa⟩ | ⟨hmissing, hoptional⟩
  · rw [hfounda, Option.bind_some, Ty.sharedField]
    rcases (hfb e he).resolve_left herror with ⟨fb, hfoundb, hfitsb⟩ | ⟨hmissing, hoptional⟩
    · -- the field is kept, since its bound is not `error`
      have hfits := ih (e.1, fa) (NameMap.mem_of_find? hfounda) fb hfoundb e.2 hse hfitsa hfitsb
      have hne : (sup (e.1, fa)).kind ≠ .error := fun hs =>
        not_fits_error (Ty.Everywhere.here hse) herror hs hfits
      simp only [hfoundb, if_neg hne]
      exact .inl ⟨_, rfl, hfits⟩
    · rw [hmissing]
      exact .inr ⟨rfl, hoptional⟩
  · rw [hmissing]
    exact .inr ⟨rfl, hoptional⟩

/-- What accepts two simple aggregates of one kind accepts what they share, if this holds of each field. -/
theorem fits_shared_least (hexact : c.rules.exact = true) (ha : a.Sound) (hb : b.Sound) (hsa : a.Simple v1)
    (hsu : u.Simple v1) (heagera : a.isEager = true) (heagerb : b.isEager = true) (hk : a.kind = b.kind) {shared : Ty}
    (heager : shared.isEager = true) (hkind : shared.kind = a.kind) {sup : Bytes × Ty → Ty}
    (hfields : shared.fields = a.sharedFields b sup)
    (ih : ∀ e ∈ a.fields, ∀ f, NameMap.find? b.fields e.1 = some f → ∀ v : Ty, v.Simple v1 → c.Fits v e.2 →
      c.Fits v f → c.Fits v (sup e))
    (hua : c.Fits u a) (hub : c.Fits u b) : c.Fits u shared := by
  have hu := Ty.Everywhere.here hsu
  have hsimple := Ty.Everywhere.here hsa
  have hnull : a.kind ≠ .objNull := by
    intro hnull
    have := (Ty.of_isEager heagera).1
    rw [Ty.isAggregate, hnull] at this
    cases this
  rw [fits_simple_iff hu (hkind ▸ hsimple), hkind]
  rw [fits_simple_iff hu hsimple] at hua
  rw [fits_simple_iff hu (hk ▸ hsimple), ← hk] at hub
  refine .inr ?_
  rcases hua.resolve_left hnull with herror | ⟨haccepts, hfa⟩
  · exact .inl herror
  rcases hub.resolve_left hnull with herror | ⟨-, hfb⟩
  · exact .inl herror
  refine .inr ⟨haccepts, fun heageru => ?_⟩
  exact fitsFields_shared hexact ha hsu heager hfields ih
    ((fitsFields_simple_iff hexact hsu ha heagera).1 (hfa heageru))
    ((fitsFields_simple_iff hexact hsu hb heagerb).1 (hfb heageru))

/-- What accepts two simple types accepts their join. -/
theorem fits_of_joins_least (hlegacy : c.rules.legacyDateTime = false) (ha : a.Sound) (hb : b.Sound)
    (hsa : a.Simple c.rules.v1) (hsb : b.Simple c.rules.v1) (hsu : u.Simple c.rules.v1) (h : c.Joins a b s)
    (hua : c.exactly.Fits u a) (hub : c.exactly.Fits u b) : c.exactly.Fits u s := by
  induction h generalizing u with
  | @equal a b h => exact fits_simple_withSourcesOf (Ty.Everywhere.here hsu) (Ty.Everywhere.here hsa) hua b
  | @apart a b _ heagera heagerb hk =>
    rcases kind_of_fits_eager (Ty.Everywhere.here hsu) (Ty.Everywhere.here hsa) heagera hua with herror | hka
    · exact fits_of_kind_error herror (by decide)
    rcases kind_of_fits_eager (Ty.Everywhere.here hsu) (Ty.Everywhere.here hsb) heagerb hub with herror | hkb
    · exact fits_of_kind_error herror (by decide)
    · exact absurd (hka.symm.trans hkb) hk
  | @shared a b _ heager shape optional fields hform hk sup _ ih =>
    refine fits_shared_least rfl ha hb hsa hsu (Ty.isEager_iff.2 ⟨_, _, _, hform⟩) heager hk
      (Ty.isEager_iff.2 ⟨_, _, _, rfl⟩) (Ty.kind_of_form hform).symm rfl (fun e he f hf v hv hve hvf => ?_) hua hub
    have hea := Ty.mem_parts_of_mem_fields he
    have hfb := Ty.mem_parts_of_mem_fields (NameMap.mem_of_find? hf)
    exact ih e he f hf (ha.part hea) (hb.part hfb) (Ty.Everywhere.part hsa hea) (Ty.Everywhere.part hsb hfb) hv hve hvf
  | @either a b s _ _ _ hs =>
    have hsealed := (Kind.of_isSimple (Ty.Everywhere.here hsa)).2.2.2.2.2
    rw [mutualBound, if_neg (by simp [hsealed])] at hs
    split at hs <;> cases hs
    · exact fits_simple_withSourcesOf (Ty.Everywhere.here hsu) (Ty.Everywhere.here hsa) hua b
    · exact fits_simple_withSourcesOf (Ty.Everywhere.here hsu) (Ty.Everywhere.here hsb) hub a
  | @left a b => exact fits_simple_withSourcesOf (Ty.Everywhere.here hsu) (Ty.Everywhere.here hsa) hua b
  | @right a b => exact fits_simple_withSourcesOf (Ty.Everywhere.here hsu) (Ty.Everywhere.here hsb) hub a
  | expanded _ _ _ hl | closed _ _ _ hl =>
    have hla := (Kind.of_isSimple (Ty.Everywhere.here hsa)).2.2.2.2.1
    have hlb := (Kind.of_isSimple (Ty.Everywhere.here hsb)).2.2.2.2.1
    rw [Ty.isLazy, Ty.isLazy, hla, hlb] at hl
    cases hl
  | kinds hunshared hab hba _ hs =>
    exact fits_joinKinds_least (c := c.exactly) hlegacy (Ty.Everywhere.here hsu) (Ty.Everywhere.here hsa)
      (Ty.Everywhere.here hsb) hunshared hab.not_fits hba.not_fits hua hub hs

/-- The supertype of two simple types is there, and every simple type that accepts both of them accepts it. -/
theorem exists_supertype_least (hlegacy : c.rules.legacyDateTime = false) (ha : a.Sound) (hb : b.Sound)
    (hsa : a.Simple c.rules.v1) (hsb : b.Simple c.rules.v1) :
    ∃ s, (c.supertype a b).outcome = .ok s ∧ ∀ u : Ty, u.Simple c.rules.v1 →
      (c.exactly.accepts u a).outcome = .ok true → (c.exactly.accepts u b).outcome = .ok true →
        (c.exactly.accepts u s).outcome = .ok true := by
  obtain ⟨s, hs⟩ := (c.covers_simple c.rules.v1).exists_joins ⟨ha, hsa⟩ ⟨hb, hsb⟩
  refine ⟨s, supertype_of_joins hs, fun u hsu hua hub => ?_⟩
  rw [accepts_eq_true_iff] at hua hub ⊢
  exact fits_of_joins_least hlegacy ha hb hsa hsb hsu hs hua hub

/-- A checker without entities under the standard rules. -/
def plainChecker : Checker := ⟨.standard, none, true⟩

/-- A record of one field. -/
def recordWith (optional : Bool) (field : Ty) : Ty :=
  .ofForm (.aggregate .record optional [(Bytes.ofString "A", field)])

theorem exists_supertype_least_recordWith :
    plainChecker.rules.legacyDateTime = false ∧ (recordWith true (.ofForm (Ty.bareForm .penImage))).Sound ∧
      (recordWith false (.ofForm (Ty.bareForm .media))).Sound ∧
      (recordWith true (.ofForm (Ty.bareForm .penImage))).Simple plainChecker.rules.v1 ∧
      (recordWith false (.ofForm (Ty.bareForm .media))).Simple plainChecker.rules.v1 ∧
      ∃ s, (plainChecker.supertype (recordWith true (.ofForm (Ty.bareForm .penImage)))
          (recordWith false (.ofForm (Ty.bareForm .media)))).outcome = .ok s ∧
        (plainChecker.exactly.accepts (recordWith false (.ofForm (Ty.bareForm .string))) s).outcome = .ok true := by
  have ha : (recordWith true (.ofForm (Ty.bareForm .penImage))).Sound := by decide +kernel
  have hb : (recordWith false (.ofForm (Ty.bareForm .media))).Sound := by decide +kernel
  have hsa : (recordWith true (.ofForm (Ty.bareForm .penImage))).Simple false := by decide +kernel
  have hsb : (recordWith false (.ofForm (Ty.bareForm .media))).Simple false := by decide +kernel
  have hsu : (recordWith false (.ofForm (Ty.bareForm .string))).Simple false := by decide +kernel
  have hwide : ∀ optional k, (recordWith optional (.ofForm (Ty.bareForm k))).Sound → k.isSimple false = true →
      (Ty.ofForm (Ty.bareForm k)).kind = k → Kind.widens .string k = true →
      (plainChecker.exactly.accepts (recordWith false (.ofForm (Ty.bareForm .string)))
        (recordWith optional (.ofForm (Ty.bareForm k)))).outcome = .ok true := by
    intro optional k hsound hsimple hk hwidens
    have hfield : plainChecker.exactly.Fits (.ofForm (Ty.bareForm .string)) (.ofForm (Ty.bareForm k)) := by
      rw [fits_simple_iff (by rfl) (by rw [hk]; exact hsimple), hk]
      refine .inr (.inr ⟨?_, fun h => by cases h⟩)
      change (decide (Kind.string = k) || _ || Kind.widens .string k) = true
      rw [hwidens, Bool.or_true]
    rw [accepts_eq_true_iff, fits_simple_iff (Ty.Everywhere.here hsu) rfl]
    refine .inr (.inr ⟨rfl, fun _ => (fitsFields_simple_iff rfl hsu hsound rfl).2 fun e he => ?_⟩)
    obtain rfl := List.mem_singleton.1 he
    exact .inr (.inl ⟨_, rfl, hfield⟩)
  obtain ⟨s, hs, hleast⟩ := exists_supertype_least (c := plainChecker) rfl ha hb hsa hsb
  exact ⟨rfl, ha, hb, hsa, hsb, s, hs,
    hleast _ hsu (hwide true .penImage ha rfl rfl rfl) (hwide false .media hb rfl rfl rfl)⟩

end Checker

end FormulaTypes
