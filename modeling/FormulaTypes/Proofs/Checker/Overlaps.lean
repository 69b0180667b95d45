import FormulaTypes.Checker.Intersection
import FormulaTypes.Proofs.Checker.UpperBound
import FormulaTypes.Proofs.Ty.Structural

/-!
# What two types have in common

`Overlaps a b r` has one rule for each way in which an intersection comes about; what accepts what is not asked. What
the rules give is what the intersection is (`intersection_of_overlaps`), and sound types always overlap
(`exists_overlaps`).

The intersection of two types keeps only what both promise: it accepts the first of them, and the second one as well
if neither has literals or tokens in it (`exists_intersection_accepts`). These are the two things in which the first
type may ask for more than the second one has: leaves are compared by their kinds, and the first one is kept.
-/

namespace FormulaTypes

namespace Ty

variable {a b : Ty}

/-- What is kept of a field of `a`: with the field of `b`, what two aggregates have in common, unless it is `error`,
and another type if its kind is the same. -/
def commonField (b : Ty) (meet : Bytes × Ty → Ty) (e : Bytes × Ty) : Option Ty :=
  match NameMap.find? b.fields e.1 with
  | none => none
  | some f =>
    if e.2.isAggregate && f.isAggregate then (if (meet e).kind = .error then none else some (meet e))
    else if e.2.kind = f.kind then some e.2 else none

/-- The fields that two types have in common. -/
def commonFields (a b : Ty) (meet : Bytes × Ty → Ty) : NameMap Ty := a.fields.filterMap (Run.kept (commonField b meet))

/-- The fields that two types have in common are in the order of the first type. -/
theorem ordered_commonFields (h : NameMap.Ordered a.fields) (meet : Bytes × Ty → Ty) :
    NameMap.Ordered (a.commonFields b meet) := ordered_kept h _

theorem find?_commonFields (h : NameMap.Ordered a.fields) (meet : Bytes × Ty → Ty) (name : Bytes) :
    NameMap.find? (a.commonFields b meet) name =
      (NameMap.find? a.fields name).bind fun t => commonField b meet (name, t) :=
  NameMap.find?_filterMap h name

theorem commonField_eq_some_iff {meet : Bytes × Ty → Ty} {e : Bytes × Ty} {g : Ty} :
    commonField b meet e = some g ↔ ∃ f, NameMap.find? b.fields e.1 = some f ∧
      ((e.2.isAggregate && f.isAggregate) = true ∧ (meet e).kind ≠ .error ∧ g = meet e ∨
        (e.2.isAggregate && f.isAggregate) = false ∧ e.2.kind = f.kind ∧ g = e.2) := by
  rw [commonField]
  cases hf : NameMap.find? b.fields e.1 with
  | none => simp
  | some f =>
    simp only [Option.some.injEq, exists_eq_left']
    cases e.2.isAggregate && f.isAggregate with
    | true => by_cases hk : (meet e).kind = .error <;> simp [hk, eq_comm (a := g)]
    | false => by_cases hk : e.2.kind = f.kind <;> simp [hk, eq_comm (a := g)]

/-- A field that two types have in common is made of a field of each. -/
theorem of_mem_commonFields {meet : Bytes × Ty → Ty} {g : Bytes × Ty} (h : g ∈ a.commonFields b meet) :
    ∃ e ∈ a.fields, ∃ f, NameMap.find? b.fields e.1 = some f ∧ g.1 = e.1 ∧
      ((e.2.isAggregate && f.isAggregate) = true ∧ g.2 = meet e ∨
        (e.2.isAggregate && f.isAggregate) = false ∧ e.2.kind = f.kind ∧ g.2 = e.2) := by
  obtain ⟨e, he, hkept⟩ := List.mem_filterMap.1 h
  obtain ⟨t, ht, rfl⟩ := Option.map_eq_some_iff.1 hkept
  obtain ⟨f, hf, hcase⟩ := commonField_eq_some_iff.1 ht
  exact ⟨e, he, f, hf, rfl, hcase.imp_left fun h => ⟨h.1, h.2.2⟩⟩

/-- No type in the type is an enum, or an opaque type with a token. -/
def Open (t : Ty) : Prop := t.Everywhere fun u => u.kind ≠ .enum ∧ (u.kind.isOpaque = true → u.token = none)

instance (t : Ty) : Decidable t.Open := Everywhere.decidable t

end Ty

/-- What two types have in common. -/
inductive Overlaps : Ty → Ty → Ty → Prop
  /-- Equal types have everything in common. -/
  | equal {a b : Ty} (h : a.equal b = true) : Overlaps a b (a.withSourcesOf b)
  /-- Lazy types have in common what their expansions have. -/
  | expanded {a b ea eb r : Ty} (h : a.equal b = false) (hl : (a.isLazy || b.isLazy) = true)
      (hx : Checker.bothExpand a b = true) (ha : a.expansion? = some ea) (hb : b.expansion? = some eb)
      (hp : a.hasProvider = true ∨ b.hasProvider = true) (hr : Overlaps ea eb r) : Overlaps a b r
  /-- Lazy types that cannot be expanded have nothing in common with others. -/
  | closed {a b : Ty} (h : a.equal b = false) (hl : (a.isLazy || b.isLazy) = true)
      (hx : Checker.bothExpand a b = false) : Overlaps a b .error
  /-- Types of different kinds have nothing in common. -/
  | apart {a b : Ty} (h : a.equal b = false) (hl : (a.isLazy || b.isLazy) = false) (hk : a.kind ≠ b.kind) :
      Overlaps a b .error
  /-- Of two types of one kind without fields the first is kept. -/
  | leaf {a b : Ty} (h : a.equal b = false) (hk : a.kind = b.kind) (ha : a.isAggregate = false) :
      Overlaps a b (a.withSourcesOf b)
  /-- Eager aggregates of one kind keep the fields that they have in common. -/
  | shared {a b : Ty} (h : a.equal b = false) (hb : b.isEager = true) {shape : Shape} {optional : Bool}
      {fields : List (Bytes × Ty)} (ha : a.form = .aggregate shape optional fields) (hk : a.kind = b.kind)
      (meet : Bytes × Ty → Ty)
      (hmeet : ∀ e ∈ a.fields, ∀ f, NameMap.find? b.fields e.1 = some f → (e.2.isAggregate && f.isAggregate) = true →
        Overlaps e.2 f (meet e)) :
      Overlaps a b (.ofForm₂ (.aggregate shape (a.optional || b.optional) (a.commonFields b meet))
        (Token.common a.token b.token) a b)

namespace Checker

variable {c : Checker} {a b r : Ty}

theorem isLazy_of_not_isAggregate (h : a.isAggregate = false) : a.isLazy = false := by
  rw [Bool.eq_false_iff]
  intro hl
  rw [Ty.isAggregate_of_isLazy hl] at h
  cases h

/-- What the rules give is the intersection. -/
theorem intersection_of_overlaps (h : Overlaps a b r) : (c.intersection a b).outcome = .ok r := by
  induction h with
  | equal h =>
    rw [intersection, if_pos h]
    rfl
  | expanded h hl hx ha hb hp _ ih =>
    rw [intersection, if_neg (by simp [h]), if_pos hl, Run.bind_of_ok (outcome_expandBoth _ _), hx, if_pos rfl]
    split
    · next ea' eb' ha' hb' =>
      rw [ha] at ha'
      rw [hb] at hb'
      cases ha'
      cases hb'
      rw [dif_pos hp]
      exact ih
    · next hne => exact absurd hb (hne _ _ ha)
  | closed h hl hx =>
    rw [intersection, if_neg (by simp [h]), if_pos hl, Run.bind_of_ok (outcome_expandBoth _ _), hx]
    rfl
  | apart h hl hk =>
    rw [intersection, if_neg (by simp [h]), if_neg (by simp [hl]), if_pos hk]
    rfl
  | @leaf a b h hk ha =>
    have hla := isLazy_of_not_isAggregate ha
    have hlb : b.isLazy = false := by rwa [Ty.isLazy, ← hk]
    rw [intersection, if_neg (by simp [h]), if_neg (by simp [hla, hlb]), if_neg (not_not.2 hk), if_pos (by simp [ha])]
    rfl
  | @shared a b h hb shape optional fields ha hk meet _ ih =>
    obtain ⟨haa, hla⟩ := Ty.of_isEager (Ty.isEager_iff.2 ⟨_, _, _, ha⟩)
    have hlb := (Ty.of_isEager hb).2
    rw [intersection, if_neg (by simp [h]), if_neg (by simp [hla, hlb]), if_neg (not_not.2 hk), if_neg (by simp [haa])]
    refine Run.bind_eq_ok_iff.2
      ⟨a.commonFields b meet, Run.collectAlong_eq_ok fun e he => ?_, outcome_aggregateLike ha _⟩
    split
    · next hf =>
      rw [Ty.commonField, hf]
      rfl
    · next f hf =>
      simp only [Ty.commonField, hf]
      by_cases hboth : (e.2.isAggregate && f.isAggregate) = true
      · rw [if_pos hboth, if_pos hboth, Run.bind_of_ok (ih e he f hf hboth)]
        rfl
      · rw [if_neg hboth, if_neg hboth]
        rfl

/-- Sound types overlap. -/
theorem exists_overlaps (ha : a.Sound) (hb : b.Sound) : ∃ r, Overlaps a b r := by
  induction hn : a.weight + b.weight using Nat.strongRecOn generalizing a b with
  | ind n ih =>
    cases hequal : a.equal b with
    | true => exact ⟨_, .equal hequal⟩
    | false =>
      cases hl : a.isLazy || b.isLazy with
      | true =>
        cases hx : bothExpand a b with
        | false => exact ⟨_, .closed hequal hl hx⟩
        | true =>
          obtain ⟨ea, eb, hea, heb⟩ := exists_expansions hx
          have hp := hasProvider_of_either_lazy ha hb hl
          have hweight : ea.weight + eb.weight < n := hn ▸ weight_add_expansions hea heb hp
          obtain ⟨r, hr⟩ := ih _ hweight (sound_expansion ha hea) (sound_expansion hb heb) rfl
          exact ⟨r, .expanded hequal hl hx hea heb hp hr⟩
      | false =>
        by_cases hk : a.kind = b.kind
        · cases haggregate : a.isAggregate with
          | false => exact ⟨_, .leaf hequal hk haggregate⟩
          | true =>
            obtain ⟨hla, hlb⟩ := Bool.or_eq_false_iff.1 hl
            have hea := Ty.isEager_of_not_lazy haggregate hla
            have heb : b.isEager = true := by rwa [Ty.isEager, ← hk]
            obtain ⟨shape, optional, fields, hform⟩ := Ty.isEager_iff.1 hea
            have hmeet : ∀ e ∈ a.fields, ∃ r, ∀ f, NameMap.find? b.fields e.1 = some f →
                (e.2.isAggregate && f.isAggregate) = true → Overlaps e.2 f r := by
              intro e he
              cases hf : NameMap.find? b.fields e.1 with
              | none => exact ⟨.error, fun f hf' => by cases hf'⟩
              | some f =>
                have hpe := Ty.mem_parts_of_mem_fields he
                have hpf := Ty.mem_parts_of_mem_fields (NameMap.mem_of_find? hf)
                have hwe := Ty.weight_lt_of_mem_parts hpe
                have hwf : f.weight < b.weight := Ty.weight_lt_of_mem_parts hpf
                obtain ⟨r, hr⟩ := ih (e.2.weight + f.weight) (by omega) (ha.part hpe) (hb.part hpf) rfl
                refine ⟨r, fun f' hf' _ => ?_⟩
                cases hf'
                exact hr
            have : Nonempty Ty := ⟨.error⟩
            choose! meet hmeet using hmeet
            exact ⟨_, .shared hequal heb hform hk meet hmeet⟩
        · exact ⟨_, .apart hequal hl hk⟩

/-! ## What intersections accept -/

/-- Types of one kind without fields fit, if the first has neither literals nor a token. -/
theorem fits_leaf (ha : a.Sound) (hb : b.Sound) (hv : a.kind ≠ .void) (hk : a.kind = b.kind)
    (hg : a.isAggregate = false) (he : a.kind ≠ .enum) (ht : a.kind.isOpaque = true → a.token = none) :
    c.Fits a b := by
  cases hsealed : a.kind.isOpaque with
  | true =>
    have hbare : Bare a := ⟨ht hsealed, Ty.form_of_isOpaque hsealed⟩
    exact hbare.fits_of_isOpaque hsealed hk.symm
  | false => exact fits_of_equal (Ty.equal_of_kind_eq ha hb hk he hsealed hg) hv

/-- What two eager aggregates have in common is `error`, or an aggregate of the kind of both. -/
theorem overlaps_eager (h : Overlaps a b r) (ha : a.isEager = true) (hb : b.isEager = true) :
    r.kind = .error ∨ (r.isEager = true ∧ r.kind = a.kind ∧ r.kind = b.kind) := by
  obtain ⟨haa, hla⟩ := Ty.of_isEager ha
  have hlb := (Ty.of_isEager hb).2
  cases h with
  | equal h =>
    refine .inr ⟨?_, Ty.kind_withSourcesOf a b, (Ty.kind_withSourcesOf a b).trans (Ty.kind_eq_of_equal h)⟩
    rw [Ty.isEager, Ty.kind_withSourcesOf]
    exact ha
  | expanded _ hl | closed _ hl =>
    rw [hla, hlb] at hl
    cases hl
  | apart => exact .inl rfl
  | leaf _ _ h =>
    rw [haa] at h
    cases h
  | shared _ _ hform hk =>
    exact .inr ⟨Ty.isEager_iff.2 ⟨_, _, _, rfl⟩, (Ty.kind_of_form hform).symm, (Ty.kind_of_form hform).symm.trans hk⟩

theorem voidless_expansion {t expanded : Ty} (ht : t.Sound) (hv : t.Voidless) (ha : t.isAggregate = true)
    (hx : t.expansion? = some expanded) : expanded.Voidless := by
  exact everywhere_expansion ht hv ha hx fun u hu => (Ty.kind_of_isEager hu).2.1

theorem open_expansion {t expanded : Ty} (ht : t.Sound) (ho : t.Open) (ha : t.isAggregate = true)
    (hx : t.expansion? = some expanded) : expanded.Open := by
  refine everywhere_expansion ht ho ha hx fun u hu => ?_
  obtain ⟨-, -, henum, hsealed⟩ := Ty.kind_of_isEager hu
  exact ⟨henum, by simp [hsealed]⟩

/-- What two types have in common accepts the first, and the second as well if they are open. -/
theorem fits_of_overlaps (ha : a.Sound) (hb : b.Sound) (hva : a.Voidless) (hvb : b.Voidless) (h : Overlaps a b r) :
    c.Fits r a ∧ (a.Open → b.Open → c.Fits r b) := by
  induction h with
  | @equal a b h =>
    have hv := hva.here
    obtain ⟨hfa, hfb⟩ := fits_withSourcesOf (fits_of_equal (c := c) h hv) hv
    exact ⟨hfa, fun _ _ => hfb⟩
  | @expanded a b ea eb r _ _ hx hea heb _ hr ih =>
    simp only [bothExpand, Bool.and_eq_true] at hx
    obtain ⟨⟨⟨⟨haa, hba⟩, -⟩, -⟩, -⟩ := hx
    rcases overlaps_eager hr (isEager_expansion ha haa hea) (isEager_expansion hb hba heb) with he | ⟨heager, hka, hkb⟩
    · exact ⟨fits_of_kind_error he hva.here, fun _ _ => fits_of_kind_error he hvb.here⟩
    · obtain ⟨hra, hrb⟩ := ih (sound_expansion ha hea) (sound_expansion hb heb) (voidless_expansion ha hva haa hea)
        (voidless_expansion hb hvb hba heb)
      refine ⟨fits_of_expansion ha hva hea heager hka hra, fun hoa hob => ?_⟩
      exact fits_of_expansion hb hvb heb heager hkb
        (hrb (open_expansion ha hoa haa hea) (open_expansion hb hob hba heb))
  | closed | apart => exact ⟨fits_of_kind_error rfl hva.here, fun _ _ => fits_of_kind_error rfl hvb.here⟩
  | @leaf a b _ hk hg =>
    refine ⟨fits_of_equal (Ty.equal_withSourcesOf a b) ?_, fun hoa _ => ?_⟩
    · rw [Ty.kind_withSourcesOf]
      exact hva.here
    · obtain ⟨he, ht⟩ := hoa.here
      exact (fits_withSourcesOf (fits_leaf ha hb hva.here hk hg he ht) hva.here).2
  | @shared a b _ heb shape optional fields hform hk meet _ ih =>
    have hea : a.isEager = true := Ty.isEager_iff.2 ⟨_, _, _, hform⟩
    have hka := (Ty.kind_of_form hform).symm
    have hfield : ∀ g ∈ a.commonFields b meet, ∃ fa fb, a.field? g.1 = some fa ∧ b.field? g.1 = some fb ∧
        c.Fits g.2 fa ∧ (a.Open → b.Open → c.Fits g.2 fb) := by
      intro g hg
      obtain ⟨e, he, f, hf, hname, hcase⟩ := Ty.of_mem_commonFields hg
      have hpe := Ty.mem_parts_of_mem_fields he
      have hpf := Ty.mem_parts_of_mem_fields (NameMap.mem_of_find? hf)
      rw [Ty.field?_of_isEager hea, Ty.field?_of_isEager heb, hname]
      refine ⟨e.2, f, NameMap.find?_of_mem ha.ordered_fields he, hf, ?_⟩
      rcases hcase with ⟨hboth, hg⟩ | ⟨hboth, hkf, hg⟩
      · obtain ⟨hfe, hff⟩ := ih e he f hf hboth (ha.part hpe) (hb.part hpf) (hva.part hpe) (hvb.part hpf)
        rw [hg]
        exact ⟨hfe, fun hoa hob => hff (hoa.part hpe) (hob.part hpf)⟩
      · -- of two leaves the first is kept
        have haggregate : e.2.isAggregate = false := by
          rwa [Ty.isAggregate, Ty.isAggregate, ← hkf, Bool.and_self] at hboth
        have hv := (hva.part hpe).here
        rw [hg]
        refine ⟨fits_of_equal (Ty.equal_self _) hv, fun hoa _ => ?_⟩
        obtain ⟨henum, htoken⟩ := (hoa.part hpe).here
        exact fits_leaf (ha.part hpe) (hb.part hpf) hv hkf haggregate henum htoken
    constructor
    · refine fits_eager (Ty.isEager_iff.2 ⟨_, _, _, rfl⟩) hea hka fun g hg => ?_
      obtain ⟨fa, -, hfa, -, hfits, -⟩ := hfield g hg
      exact ⟨fa, hfa, hfits⟩
    · intro hoa hob
      refine fits_eager (Ty.isEager_iff.2 ⟨_, _, _, rfl⟩) heb (hka.trans hk) fun g hg => ?_
      obtain ⟨-, fb, -, hfb, -, hfits⟩ := hfield g hg
      exact ⟨fb, hfb, hfits hoa hob⟩

/-- Of two eager aggregates of one kind, what they have in common has no other names than both of them. -/
theorem names_of_overlaps (h : Overlaps a b r) (ha : a.isEager = true) (hb : b.isEager = true) (hk : a.kind = b.kind)
    {name : Bytes} (hname : name ∈ r.fieldNames) : name ∈ a.fieldNames ∧ name ∈ b.fieldNames := by
  obtain ⟨haa, hla⟩ := Ty.of_isEager ha
  have hlb := (Ty.of_isEager hb).2
  rw [Ty.fieldNames_of_isEager ha, Ty.fieldNames_of_isEager hb]
  cases h with
  | equal h =>
    have hfields : FieldsAlike a.fields b.fields := (Ty.alike_iff.1 (Ty.alike_of_equal h).1).2.2.2.2.1
    have hnames := NameMap.names_eq_of_forall₂ (fun _ _ he => he.1) hfields
    have heager : (a.withSourcesOf b).isEager = true := by
      rw [Ty.isEager, Ty.kind_withSourcesOf]
      exact ha
    have hform : (a.withSourcesOf b).form = a.form := Ty.form_withSources a _
    rw [Ty.fieldNames_of_isEager heager, Ty.fields_eq_of_form_eq hform] at hname
    exact ⟨hname, hnames ▸ hname⟩
  | expanded _ hl | closed _ hl =>
    rw [hla, hlb] at hl
    cases hl
  | apart _ _ hne => exact absurd hk hne
  | leaf _ _ h =>
    rw [haa] at h
    cases h
  | shared _ _ hform _ meet _ =>
    obtain ⟨g, hg, rfl⟩ := List.mem_map.1 hname
    obtain ⟨e, he, f, hf, hge, -⟩ := Ty.of_mem_commonFields hg
    rw [hge]
    exact ⟨List.mem_map.2 ⟨e, he, rfl⟩, List.mem_map.2 ⟨(e.1, f), NameMap.mem_of_find? hf, rfl⟩⟩

/-- The intersection of two types is there. It accepts the first of them, and the second one as well if neither has
literals or tokens of opaque types in it. That of two aggregates of one kind has names of both only. -/
theorem exists_intersection_accepts (ha : a.Sound) (hb : b.Sound) :
    ∃ r, (c.intersection a b).outcome = .ok r ∧
      (a.Voidless → b.Voidless → (c.exactly.accepts r a).outcome = .ok true ∧
        (a.Open → b.Open → (c.exactly.accepts r b).outcome = .ok true)) ∧
      (a.isEager = true → b.isEager = true → a.kind = b.kind →
        ∀ name ∈ r.fieldNames, name ∈ a.fieldNames ∧ name ∈ b.fieldNames) := by
  obtain ⟨r, hr⟩ := exists_overlaps ha hb
  refine ⟨r, intersection_of_overlaps hr, fun hva hvb => ?_, fun hea heb hk name => names_of_overlaps hr hea heb hk⟩
  simp only [accepts_eq_true_iff]
  exact fits_of_overlaps ha hb hva hvb hr

/-- A record of a record on demand and a number. -/
def demandedInside : Ty :=
  .ofForm (.aggregate .record false
    [(Bytes.ofString "A", .ofForm (.lazy false false (some ⟨Bytes.ofString "p", true,
      [(Bytes.ofString "V", .host (some (.ofForm (Ty.bareForm .string)))),
       (Bytes.ofString "W", .host (some (.ofForm (Ty.bareForm .number))))],
      none⟩))),
     (Bytes.ofString "B", .ofForm (Ty.bareForm .number))])

/-- A record of a record that has one of these fields, and of a bare entity. -/
def eagerInside : Ty :=
  .ofForm (.aggregate .record true
    [(Bytes.ofString "A", .ofForm (.aggregate .record false
      [(Bytes.ofString "V", .ofForm (Ty.bareForm .string)), (Bytes.ofString "W", .ofForm (Ty.bareForm .boolean))])),
     (Bytes.ofString "C", .ofForm (Ty.bareForm .dataEntity))])

theorem exists_intersection_accepts_inside :
    demandedInside.Sound ∧ eagerInside.Sound ∧ demandedInside.Voidless ∧ eagerInside.Voidless ∧
      demandedInside.Open ∧ eagerInside.Open ∧
      ∃ r, (singleEntity.intersection demandedInside eagerInside).outcome = .ok r ∧
        (singleEntity.exactly.accepts r demandedInside).outcome = .ok true ∧
        (singleEntity.exactly.accepts r eagerInside).outcome = .ok true ∧
        ∀ name ∈ r.fieldNames, name ∈ demandedInside.fieldNames ∧ name ∈ eagerInside.fieldNames := by
  have ha : demandedInside.Sound := by decide +kernel
  have hb : eagerInside.Sound := by decide +kernel
  have hva : demandedInside.Voidless := by decide +kernel
  have hvb : eagerInside.Voidless := by decide +kernel
  have hoa : demandedInside.Open := by decide +kernel
  have hob : eagerInside.Open := by decide +kernel
  obtain ⟨r, hr, haccepts, hnames⟩ := exists_intersection_accepts (c := singleEntity) ha hb
  obtain ⟨hra, hrb⟩ := haccepts hva hvb
  exact ⟨ha, hb, hva, hvb, hoa, hob, r, hr, hra, hrb hoa hob, hnames rfl rfl rfl⟩

end Checker

end FormulaTypes
