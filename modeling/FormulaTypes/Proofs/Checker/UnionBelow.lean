import FormulaTypes.Proofs.Checker.Agreement
import FormulaTypes.Proofs.Checker.Conflicts
import FormulaTypes.Proofs.Checker.UpperBound

/-!
# Supertypes accept unions

The supertype of two eager aggregates of one kind drops the fields in which they differ, and the union keeps them and
marks conflicts. What stays of a field in the supertype accepts what the union has in it, at any depth, so that the
supertype accepts the union (`fits_of_merges`). No kind is asked to accept another one for this, unlike for the two
aggregates themselves:

* if one of two fields accepts the other, their supertype accepts both (`fits_of_joins_of_fits`), and this covers
  fields that are nothing;
* an entity and an aggregate that do not accept each other have no supertype but `error` (`kind_of_joins_entity`);
* all other fields are merged to their supertype.
-/

namespace FormulaTypes

namespace Kind

/-- Nothing stands below `void`. -/
theorem not_void_of_mem_ancestors {k above : Kind} (h : above ∈ k.ancestors) : above ≠ .void := by
  have hall : (k.ancestors.all fun above => decide (above ≠ .void)) = true := by
    cases k <;> rfl
  exact of_decide_eq_true (List.all_eq_true.1 hall above h)

/-- Aggregates and entities have no kind above both. -/
theorem join_entity {k : Kind} (h : k.isAggregate = true) :
    k.join .dataEntity = .error ∧ Kind.dataEntity.join k = .error := by
  cases k <;> first | exact ⟨rfl, rfl⟩ | cases h

end Kind

namespace Checker

variable {c : Checker} {a b s : Ty} {m : Merge}

/-! ## Supertypes of fields -/

/-- The supertype of two types of which one accepts the other accepts both. -/
theorem fits_of_joins_of_fits (h : c.Joins a b s) (heager : (a.isEager && b.isEager) = false)
    (hfits : c.exactly.Fits a b ∨ c.exactly.Fits b a) : c.exactly.Fits s a ∧ c.exactly.Fits s b := by
  have hvoid : a.kind ≠ .void ∧ b.kind ≠ .void := by
    rcases hfits with hab | hba
    · exact not_void_of_fits hab
    · exact (not_void_of_fits hba).symm
  cases h with
  | equal h => exact fits_withSourcesOf (fits_of_equal h hvoid.1) hvoid.1
  | apart _ ha hb =>
    rw [ha, hb] at heager
    cases heager
  | shared _ hb ha =>
    rw [Ty.isEager_iff.2 ⟨_, _, _, ha⟩, hb] at heager
    cases heager
  | either _ hab hba hs => exact fits_mutualBound hab hba hs
  | left _ hab => exact fits_withSourcesOf hab hvoid.1
  | right _ _ hba => exact (fits_withSourcesOf hba hvoid.2).symm
  | expanded _ hab hba | closed _ hab hba | kinds _ hab hba =>
    -- these rules are for types that refuse each other
    exact absurd hfits (not_or.2 ⟨hab.not_fits, hba.not_fits⟩)

/-- Where the hierarchy joins two types is `error` or of the join of the kinds from which they climb. -/
theorem kind_joinKinds_cases (h : (joinKinds a b).outcome = .ok s) :
    s.kind = .error ∨ s.kind = a.chainKind.join b.chainKind := by
  unfold joinKinds at h
  dsimp only at h
  split at h
  · cases h
    exact .inl rfl
  · obtain ⟨t, ht, hs⟩ := Run.bind_eq_ok_iff.1 h
    cases hs
    rw [Ty.kind_withSourcesOf, Ty.kind_withSourcesOf, (kind_ofKind ht).1]
    exact .inr rfl

/-- The supertype of two types is not `void` if they are not. -/
theorem not_void_of_joins (ha : a.Sound) (hb : b.Sound) (hva : a.kind ≠ .void) (hvb : b.kind ≠ .void)
    (h : c.Joins a b s) : s.kind ≠ .void := by
  have hne : ∀ {k : Kind}, k = .error → k ≠ .void := by
    rintro k rfl
    decide
  cases h with
  | equal | left => rwa [Ty.kind_withSourcesOf]
  | right => rwa [Ty.kind_withSourcesOf]
  | apart | closed => exact hne rfl
  | shared => exact Ty.kind_ne_of_isAggregate (Ty.of_isEager (Ty.isEager_iff.2 ⟨_, _, _, rfl⟩)).1 rfl
  | either _ hab hba hs => exact (not_void_of_fits (fits_mutualBound hab hba hs).1).1
  | expanded _ _ _ _ hx hea heb _ hs =>
    simp only [bothExpand, Bool.and_eq_true] at hx
    obtain ⟨⟨⟨⟨haa, hba⟩, -⟩, -⟩, -⟩ := hx
    rcases joins_eager hs (isEager_expansion ha haa hea) (isEager_expansion hb hba heb) with herror | ⟨heager, -⟩
    · exact hne herror
    · exact Ty.kind_ne_of_isAggregate (Ty.of_isEager heager).1 rfl
  | kinds _ _ _ _ hs =>
    rcases kind_joinKinds_cases hs with herror | hjoin
    · exact hne herror
    · rw [hjoin]
      rcases Kind.join_cases a.chainKind b.chainKind with herror | ⟨hsame | habove, -⟩
      · exact hne herror
      · rw [hsame]
        exact chainKind_ne_void ha hva
      · exact Kind.not_void_of_mem_ancestors habove

/-- An aggregate and an entity that do not accept each other have no supertype but `error`. -/
theorem kind_of_joins_entity (h : c.Joins a b s)
    (hkinds : (a.isAggregate = true ∧ b.kind = .dataEntity) ∨ (b.isAggregate = true ∧ a.kind = .dataEntity)) :
    (c.exactly.Fits a b ∨ c.exactly.Fits b a) ∨ s.kind = .error := by
  have hone : ¬ (a.isAggregate = true ∧ b.isAggregate = true) := by
    rintro ⟨haa, hba⟩
    rcases hkinds with ⟨-, hk⟩ | ⟨-, hk⟩
    · exact Ty.kind_ne_of_isAggregate hba rfl hk
    · exact Ty.kind_ne_of_isAggregate haa rfl hk
  cases h with
  | equal h =>
    have hk := Ty.kind_eq_of_equal h
    rw [Ty.isAggregate, Ty.isAggregate, hk, and_self] at hone
    rcases hkinds with ⟨haa, -⟩ | ⟨hba, -⟩
    · rw [Ty.isAggregate, hk] at haa
      exact absurd haa hone
    · exact absurd hba hone
  | apart _ ha hb => exact absurd ⟨(Ty.of_isEager ha).1, (Ty.of_isEager hb).1⟩ hone
  | shared _ hb ha => exact absurd ⟨(Ty.of_isEager (Ty.isEager_iff.2 ⟨_, _, _, ha⟩)).1, (Ty.of_isEager hb).1⟩ hone
  | either _ hab | left _ hab => exact .inl (.inl hab)
  | right _ _ hba => exact .inl (.inr hba)
  | expanded _ _ _ _ hx =>
    simp only [bothExpand, Bool.and_eq_true] at hx
    exact absurd hx.1.1.1 hone
  | closed => exact .inr rfl
  | kinds _ _ _ _ hs =>
    right
    rcases kind_joinKinds_cases hs with herror | hjoin
    · exact herror
    · rw [hjoin]
      have haggregate : ∀ {t : Ty}, t.isAggregate = true → t.chainKind = t.kind :=
        fun ht => if_neg (Ty.kind_ne_of_isAggregate ht rfl)
      have hentity : ∀ {t : Ty}, t.kind = .dataEntity → t.chainKind = .dataEntity := by
        intro t ht
        rw [Ty.chainKind, ht, if_neg (by decide)]
      rcases hkinds with ⟨haa, hk⟩ | ⟨hba, hk⟩
      · rw [haggregate haa, hentity hk]
        exact (Kind.join_entity haa).1
      · rw [haggregate hba, hentity hk]
        exact (Kind.join_entity hba).2

/-- The supertype of two fields that are not both eager aggregates accepts what they are merged to. -/
theorem fits_of_mergesLeaves (ha : a.Sound) (hb : b.Sound) (hva : a.kind ≠ .void) (hvb : b.kind ≠ .void)
    (heager : (a.isEager && b.isEager) = false) (h : c.MergesLeaves a b m) (hs : c.Joins a b s) :
    c.exactly.Fits s m.type := by
  have hentity : ∀ {x y : Ty}, x.isExpansionOf y = true → x.isAggregate = true ∧ y.kind = .dataEntity := by
    intro x y hx
    simp only [Ty.isExpansionOf, Bool.and_eq_true, decide_eq_true_eq] at hx
    exact hx.1.1
  cases h with
  | nullLeft hnull => exact (fits_of_joins_of_fits hs heager (.inr (fits_of_free hvb hva (.inl hnull)))).2
  | nullRight _ hnull => exact (fits_of_joins_of_fits hs heager (.inl (fits_of_free hva hvb (.inl hnull)))).1
  | entityRight _ _ hx =>
    rcases kind_of_joins_entity hs (.inl (hentity hx)) with hfits | herror
    · exact (fits_of_joins_of_fits hs heager hfits).2
    · exact fits_of_kind_error herror hvb
  | entityLeft _ _ hx =>
    rcases kind_of_joins_entity hs (.inr (hentity hx)) with hfits | herror
    · exact (fits_of_joins_of_fits hs heager hfits).1
    · exact fits_of_kind_error herror hva
  | joined _ _ _ _ hs' =>
    have hsame := supertype_of_joins hs'
    rw [supertype_of_joins hs] at hsame
    cases hsame
    exact fits_of_equal (Ty.equal_self s) (not_void_of_joins ha hb hva hvb hs)

/-! ## Eager aggregates -/

/-- The supertype of two eager aggregates of one kind is of this kind. -/
theorem kind_of_joins_eager (hs : c.Joins a b s) (hea : a.isEager = true) (heb : b.isEager = true)
    (hk : a.kind = b.kind) : s.kind = a.kind := by
  cases hs with
  | equal => exact Ty.kind_withSourcesOf a b
  | apart _ _ _ hne => exact absurd hk hne
  | shared _ _ hform => exact (Ty.kind_of_form hform).symm
  | either h | left h | right h | expanded h | closed h | kinds h =>
    exact absurd (by rw [hea, heb]; rfl) h.uneager

/-- A field of the supertype of two eager aggregates is the supertype of two fields of theirs, sources aside. -/
theorem exists_joins_of_mem_fields (ha : a.Sound) (hb : b.Sound) (hea : a.isEager = true) (heb : b.isEager = true)
    (hs : c.Joins a b s) {e : Bytes × Ty} (he : e ∈ s.fields) :
    ∃ fa fb t, NameMap.find? a.fields e.1 = some fa ∧ NameMap.find? b.fields e.1 = some fb ∧ c.Joins fa fb t ∧
      t.form = e.2.form ∧ t.token = e.2.token := by
  cases hs with
  | equal h =>
    have hfields : (a.withSourcesOf b).fields = a.fields := Ty.fields_eq_of_form_eq (Ty.form_withSources a _)
    rw [hfields] at he
    obtain ⟨f, hf, hname, hequal⟩ := NameMap.exists_mem_of_forall₂ (Ty.fieldsAlike_of_equal h) he
    refine ⟨e.2, f.2, _, NameMap.find?_of_mem ha.ordered_fields he, ?_, .equal hequal, Ty.form_withSources e.2 _,
      Ty.token_withSources e.2 _⟩
    rw [hname]
    exact NameMap.find?_of_mem hb.ordered_fields hf
  | apart => cases he
  | shared _ _ _ _ sup hsup =>
    obtain ⟨g, hg, f, hf, rfl, -⟩ := Ty.mem_sharedFields_iff.1 he
    exact ⟨g.2, f, sup g, NameMap.find?_of_mem ha.ordered_fields hg, hf, hsup g hg f hf, rfl, rfl⟩
  | either h | left h | right h | expanded h | closed h | kinds h =>
    exact absurd (by rw [hea, heb]; rfl) h.uneager

/-- The supertype of two eager aggregates accepts what they are merged to. -/
theorem fits_of_merges (h : c.Merges a b m) (ha : a.Sound) (hb : b.Sound) (hva : a.Voidless) (hvb : b.Voidless)
    (hea : a.isEager = true) (heb : b.isEager = true) (hs : c.Joins a b s) : c.exactly.Fits s m.type := by
  induction h generalizing s with
  | nullLeft hnull => exact absurd hnull (Ty.kind_of_isEager hea).1
  | nullRight _ _ hnull => exact absurd hnull (Ty.kind_of_isEager heb).1
  | apart _ _ hk =>
    rcases joins_eager hs hea heb with herror | ⟨-, hka, hkb⟩
    · exact fits_of_kind_error herror (by decide)
    · exact absurd (hka.symm.trans hkb) hk
  | @fields a b _ shape optional old hform hk merge hnew hleaves hnested ih =>
    have heu : (Ty.ofForm₂ (.aggregate shape (a.optional || b.optional) (a.mergedFields b merge))
        (Token.common a.token b.token) a b).isEager = true := Ty.isEager_iff.2 ⟨_, _, _, rfl⟩
    rcases joins_eager hs hea heb with herror | ⟨hes, hka, -⟩
    · exact fits_of_kind_error herror (Ty.kind_ne_of_isAggregate (Ty.of_isEager heu).1 rfl)
    -- only fields of the supertype are asked for, and each comes from a field that both aggregates have
    refine fits_eager hes heu (hka.trans (by rw [Ty.kind_of_form hform]; rfl)) fun e he => ?_
    obtain ⟨fa, fb, t, hfa, hfb, ht, htform, httoken⟩ := exists_joins_of_mem_fields ha hb hea heb hs he
    have hga := Ty.mem_parts_of_mem_fields (NameMap.mem_of_find? hfa)
    have hgb := NameMap.mem_of_find? hfb
    have hpb := Ty.mem_parts_of_mem_fields hgb
    refine ⟨(merge (e.1, fb)).type, ?_, fits_of_form_eq htform httoken ?_⟩
    · rw [field?_eq_of_mergedFields hb.ordered_fields hea heb heu rfl, Ty.field?_of_isEager heb, hfb]
      rfl
    cases hboth : fa.isEager && fb.isEager with
    | false =>
      exact fits_of_mergesLeaves (ha.part hga) (hb.part hpb) (Ty.Everywhere.part hva hga).here
        (Ty.Everywhere.part hvb hpb).here hboth (hleaves _ hgb fa hfa hboth) ht
    | true =>
      obtain ⟨hefa, hefb⟩ := Bool.and_eq_true_iff.1 hboth
      exact ih _ hgb fa hfa hboth (ha.part hga) (hb.part hpb) (Ty.Everywhere.part hva hga)
        (Ty.Everywhere.part hvb hpb) hefa hefb ht
  | either hu | left hu | right hu | expanded hu | closed hu | joined hu =>
    exact absurd (by rw [hea, heb]; rfl) hu.uneager

/-- **Supertypes accept unions**: of two eager aggregates of one kind without `void` both are there if look-ups end,
both are of this kind, and the supertype accepts the union, exactly and whether or not the union is in conflict. -/
theorem supertype_accepts_union (ha : a.Sound) (hb : b.Sound) (hva : a.Voidless) (hvb : b.Voidless)
    (hea : a.isEager = true) (heb : b.isEager = true) (hk : a.kind = b.kind) :
    (c.Answers → (c.supertype a b).Ends ∧ (c.union a b).Ends) ∧
      ∀ s m, (c.supertype a b).outcome = .ok s → (c.union a b).outcome = .ok m →
        s.kind = a.kind ∧ m.type.kind = a.kind ∧ (c.exactly.accepts s m.type).outcome = .ok true := by
  refine ⟨fun hc => ?_, fun s m hs hm => ?_⟩
  · obtain ⟨s, hs⟩ := exists_joins hc ha hb
    obtain ⟨m, hm⟩ := hc.covers.exists_merges ha hb
    exact ⟨⟨s, supertype_of_joins hs⟩, m, union_of_merges hm⟩
  · have hjoins := joins_of_supertype ha hb hs
    have hmerges := merges_of_union ha hb hm
    obtain ⟨-, -, hkind, -⟩ := exists_mergedFields hmerges hea heb hk
    exact ⟨kind_of_joins_eager hjoins hea heb hk, hkind,
      accepts_eq_true_iff.2 (fits_of_merges hmerges ha hb hva hvb hea heb hjoins)⟩

/-- A record of nothing, a record in a record, an entity and a text. -/
def recordOfNothing : Ty :=
  .ofForm (.aggregate .record false
    [(Bytes.ofString "A", .ofForm (Ty.bareForm .objNull)),
     (Bytes.ofString "B", .ofForm (.aggregate .record false
       [(Bytes.ofString "X", .ofForm (.aggregate .record false []))])),
     (Bytes.ofString "C", .node (Ty.bareForm .dataEntity) (some ⟨Bytes.ofString "1", none⟩) ∅),
     (Bytes.ofString "D", .ofForm (Ty.bareForm .string))])

/-- A record of a number, a table in a record, the expansion of the entity and a flag. -/
def recordOfNumber : Ty :=
  .ofForm (.aggregate .record true
    [(Bytes.ofString "A", .ofForm (Ty.bareForm .number)),
     (Bytes.ofString "B", .ofForm (.aggregate .record false
       [(Bytes.ofString "X", .ofForm (.aggregate .table false []))])),
     (Bytes.ofString "C", .node (.aggregate .record false [(Bytes.ofString "A", .ofForm (Ty.bareForm .number))])
       (some ⟨Bytes.ofString "1", none⟩) ∅),
     (Bytes.ofString "E", .ofForm (Ty.bareForm .boolean))])

theorem supertype_accepts_union_records :
    recordOfNothing.Sound ∧ recordOfNumber.Sound ∧ recordOfNothing.Voidless ∧ recordOfNumber.Voidless ∧
      recordOfNothing.isEager = true ∧ recordOfNumber.isEager = true ∧ recordOfNothing.kind = recordOfNumber.kind ∧
      ∃ s m, (singleEntity.supertype recordOfNothing recordOfNumber).outcome = .ok s ∧
        (singleEntity.union recordOfNothing recordOfNumber).outcome = .ok m ∧ m.clean = false ∧ s.kind = .record ∧
        m.type.kind = .record ∧ (singleEntity.exactly.accepts s m.type).outcome = .ok true := by
  have ha : recordOfNothing.Sound := by decide +kernel
  have hb : recordOfNumber.Sound := by decide +kernel
  have hva : recordOfNothing.Voidless := by decide +kernel
  have hvb : recordOfNumber.Voidless := by decide +kernel
  obtain ⟨hends, haccepts⟩ := supertype_accepts_union (c := singleEntity) ha hb hva hvb rfl rfl rfl
  obtain ⟨⟨s, hs⟩, m, hm⟩ := hends answers_singleEntity
  refine ⟨ha, hb, hva, hvb, rfl, rfl, rfl, s, m, hs, hm, ?_, haccepts s m hs hm⟩
  have hmerges := merges_of_union ha hb hm
  refine (clean_eq_false_iff hmerges ha hb rfl rfl).2 ⟨[Bytes.ofString "B", Bytes.ofString "X"], ?_⟩
  refine conflictAt_cons hmerges hb.ordered_fields rfl rfl rfl rfl rfl rfl fun m' hm' => ?_
  refine conflictAt_cons hm' (by decide) rfl rfl rfl rfl rfl rfl fun m'' hm'' => ?_
  exact conflictAt_of_apart hm'' rfl rfl (by decide)

end Checker

end FormulaTypes
