import FormulaTypes.Proofs.Checker.UpperBound

/-!
# Supertypes do not depend on the order

The supertypes of two types in either order are equal (`supertype_comm`), if lazy types that accept each other
without being equal have different digests. Every rule of `Joins` has its counterpart in the other order
(`exists_joins_swap`). Two rules take an argument:

* fields that two aggregates share are in the order of their names, whichever of the two they are taken from
  (`fieldsAlike_sharedFields`);
* of two types that accept each other the same one stands for both (`standsFirst_cases`), for unless they are lazy,
  types that differ in nothing that is looked at are equal (`equal_of_fits_of_fits`).
-/

namespace FormulaTypes

/-- The token that two aggregates share means the same in either order. -/
theorem Token.same_common (s t : Option Token) : Token.same (Token.common s t) (Token.common t s) = true := by
  cases s with
  | none => cases t <;> rfl
  | some x =>
    cases t with
    | none => rfl
    | some y => by_cases h : x.key = y.key <;> simp [Token.common, Token.same, h, eq_comm]

/-- Literals that accept each other under exact rules agree. -/
theorem Values.agree_of_valuesAccept {r : Rules} (hr : r.exact = true) {vs ws : Values}
    (hvw : r.valuesAccept vs ws = true) (hwv : r.valuesAccept ws vs = true) : vs.agree ws = true := by
  rw [Rules.valuesAccept_iff hr] at hvw hwv
  rw [Values.agree_iff]
  refine NameMap.forall₂_of_mem (R := fun x y => Literal.same x y = true) vs.ordered ws.ordered (fun e he => ?_)
    fun f hf => ?_
  · obtain ⟨value, hvalue, hsame⟩ := hwv e he
    exact ⟨(e.1, value), NameMap.mem_of_find? hvalue, rfl, by rw [Literal.same_symm]; exact hsame⟩
  · obtain ⟨value, hvalue, -⟩ := hvw f hf
    exact ⟨(f.1, value), NameMap.mem_of_find? hvalue, rfl⟩

namespace Ty

variable {a b : Ty}

/-- One of two types stands first, unless they agree in all that is looked at. -/
theorem standsFirst_cases (a b : Ty) :
    a.standsFirst b = !b.standsFirst a ∨ (a.isLazy = b.isLazy ∧ a.kind = b.kind ∧ a.digest = b.digest) := by
  unfold standsFirst
  by_cases hl : a.isLazy = b.isLazy
  · by_cases ht : a.token.isNone = b.token.isNone
    · by_cases hk : a.kind = b.kind
      · by_cases hd : a.digest = b.digest
        · exact .inr ⟨hl, hk, hd⟩
        · left
          rw [← UInt64.toNat_inj] at hd
          simp only [hl, ht, hk, ne_eq, not_true_eq_false, if_false, UInt64.lt_iff_toNat_lt, Bool.not_not]
          rw [Bool.eq_iff_iff]
          simp only [Bool.not_eq_true', decide_eq_false_iff_not, decide_eq_true_eq]
          omega
      · have hindex : a.kind.index ≠ b.kind.index := fun h => hk (Kind.index_inj.1 h)
        left
        simp only [hl, ht, hk, Ne.symm hk, ne_eq, not_true_eq_false, not_false_eq_true, if_true, if_false]
        rw [Bool.eq_iff_iff]
        simp only [Bool.not_eq_true', decide_eq_false_iff_not, decide_eq_true_eq]
        omega
    · left
      cases ha : a.token.isNone <;> cases hb : b.token.isNone <;> simp_all
  · left
    cases ha : a.isLazy <;> cases hb : b.isLazy <;> simp_all

/-- The fields that two types share are alike in either order if their supertypes are equal. -/
theorem fieldsAlike_sharedFields {sup sup' : Bytes × Ty → Ty} (ha : NameMap.Ordered a.fields)
    (hb : NameMap.Ordered b.fields)
    (h : ∀ e ∈ a.fields, ∀ g ∈ b.fields, e.1 = g.1 → (sup e).equal (sup' g) = true) :
    FieldsAlike (a.sharedFields b sup) (b.sharedFields a sup') := by
  refine NameMap.forall₂_of_mem (R := fun x y => Ty.equal x y = true) (ordered_sharedFields ha sup)
    (ordered_sharedFields hb sup') ?_ ?_
  · intro d hd
    obtain ⟨e, he, f, hf, rfl, hk⟩ := mem_sharedFields_iff.1 hd
    have hg := NameMap.mem_of_find? hf
    have hequal := h e he _ hg rfl
    refine ⟨(e.1, sup' (e.1, f)), mem_sharedFields_iff.2 ⟨_, hg, e.2, NameMap.find?_of_mem ha he, rfl, ?_⟩, rfl, hequal⟩
    rwa [← kind_eq_of_equal hequal]
  · intro d hd
    obtain ⟨g, hg, f, hf, rfl, hk⟩ := mem_sharedFields_iff.1 hd
    have he := NameMap.mem_of_find? hf
    have hequal := h _ he g hg rfl
    refine ⟨(g.1, sup (g.1, f)), mem_sharedFields_iff.2 ⟨_, he, g.2, NameMap.find?_of_mem hb hg, rfl, ?_⟩, rfl⟩
    rwa [kind_eq_of_equal hequal]

end Ty

namespace Checker

variable {c : Checker} {a b s : Ty}

/-! ## Types that accept each other -/

/-- Types of one kind that accept each other are equal, aggregates and opaque types aside. -/
theorem equal_of_fits_of_fits (hr : c.rules.exact = true) (ha : a.Sound) (hb : b.Sound) (hk : a.kind = b.kind)
    (hsealed : a.kind.isOpaque = false) (haggregate : a.kind.isAggregate = false) (hab : c.Fits a b)
    (hba : c.Fits b a) : a.equal b = true := by
  by_cases henum : a.kind = .enum
  · have henum' : b.kind = .enum := hk.symm.trans henum
    obtain ⟨superkind, values, hform⟩ := Ty.kind_eq_enum_iff.1 henum
    obtain ⟨superkind', values', hform'⟩ := Ty.kind_eq_enum_iff.1 henum'
    have hcab : Compared a b := ⟨by simp [henum, henum'], by simp [henum, henum'], by simp [henum']⟩
    have hcba : Compared b a := ⟨by simp [henum, henum'], by simp [henum, henum'], by simp [henum]⟩
    obtain ⟨-, hsuper, hvalues⟩ := (fits_enum_iff hcab hform).1 hab
    obtain ⟨-, -, hvalues'⟩ := (fits_enum_iff hcba hform').1 hba
    rw [Ty.superkind, hform'] at hsuper
    rw [Ty.values, hform'] at hvalues
    rw [Ty.values, hform] at hvalues'
    refine Ty.equal_iff.2 ⟨?_, ?_⟩
    · rw [hform, hform', hsuper]
      exact .enum (Values.agree_of_valuesAccept hr hvalues hvalues')
    · rw [Ty.token_eq_none ha.valid hsealed haggregate, Ty.token_eq_none hb.valid (hk ▸ hsealed) (hk ▸ haggregate)]
      rfl
  · exact Ty.equal_of_kind_eq ha hb hk henum hsealed haggregate

/-- What stands for two types that accept each other does not depend on their order, unless they are lazy and have the
same digest. -/
theorem exists_mutualBound_swap (ha : a.Sound) (hb : b.Sound) (hu : Unshared a b) (hab : c.exactly.Fits a b)
    (hba : c.exactly.Fits b a) (hs : (mutualBound a b).outcome = .ok s)
    (hd : a.isLazy = true → b.isLazy = true → a.kind = b.kind → a.digest ≠ b.digest) :
    ∃ r, (mutualBound b a).outcome = .ok r ∧ s.equal r = true := by
  unfold mutualBound at hs ⊢
  split at hs
  · next hsealed =>
    rw [if_pos ⟨hsealed.1.symm, hsealed.2.1.symm, hsealed.2.1 ▸ hsealed.2.2⟩, ← hsealed.2.1]
    obtain ⟨t, ht, h⟩ := Run.bind_eq_ok_iff.1 hs
    cases h
    refine ⟨(t.withSourcesOf b).withSourcesOf a, Run.bind_eq_ok_iff.2 ⟨t, ht, rfl⟩, ?_⟩
    exact Ty.equal_of_form_eq (by simp [Ty.withSourcesOf]) (by simp [Ty.withSourcesOf])
  · next hsealed =>
    have hswap : ¬ (b.isLazy = a.isLazy ∧ b.kind = a.kind ∧ b.kind.isOpaque = true) := by
      rintro ⟨hl, hk, ho⟩
      exact hsealed ⟨hl.symm, hk.symm, hk ▸ ho⟩
    rw [if_neg hswap]
    rcases Ty.standsFirst_cases a b with hfirst | ⟨hl, hk, hdigest⟩
    · refine ⟨s, ?_, Ty.equal_self s⟩
      rw [hfirst] at hs
      cases hb : b.standsFirst a <;> rw [hb] at hs <;> exact hs
    · exfalso
      have hsealed' : a.kind.isOpaque = false := by
        simpa [hl, hk] using hsealed
      cases hlazy : a.isLazy with
      | true => exact hd hlazy (hl ▸ hlazy) hk hdigest
      | false =>
        refine hu.unequal (equal_of_fits_of_fits rfl ha hb hk hsealed' ?_ hab hba)
        rw [Bool.eq_false_iff]
        intro hg
        rw [Ty.isLazy] at hlazy
        refine hu.uneager ?_
        rw [Ty.isEager, Ty.isEager, ← hk, hg, hlazy]
        rfl

/-! ## All joins -/

/-- On the way to the supertype of `a` and `b` two types that accept each other are compared, `x` with `y`. -/
inductive Mutual (c : Checker) : Ty → Ty → Ty → Ty → Prop
  | here {a b : Ty} (h : Unshared a b) (hab : c.exactly.Fits a b) (hba : c.exactly.Fits b a) : Mutual c a b a b
  | field {a b x y : Ty} (h : a.equal b = false) (ha : a.isEager = true) (hb : b.isEager = true) (hk : a.kind = b.kind)
      {e : Bytes × Ty} (he : e ∈ a.fields) {f : Ty} (hf : NameMap.find? b.fields e.1 = some f)
      (hxy : Mutual c e.2 f x y) : Mutual c a b x y
  | expansion {a b ea eb x y : Ty} (h : Unshared a b) (hab : c.exactly.Refuses a b) (hba : c.exactly.Refuses b a)
      (hl : (a.isLazy || b.isLazy) = true) (ha : a.expansion? = some ea) (hb : b.expansion? = some eb)
      (hxy : Mutual c ea eb x y) : Mutual c a b x y

/-- Lazy types of one kind that are compared on the way to a supertype, and are not equal, have different digests. -/
def Apart (c : Checker) (a b : Ty) : Prop :=
  ∀ x y, c.Mutual a b x y → x.isLazy = true → y.isLazy = true → x.kind = y.kind → x.digest ≠ y.digest

theorem Unshared.symm (h : Unshared a b) : Unshared b a :=
  ⟨by rw [Ty.equal_comm]; exact h.unequal, by rw [Bool.and_comm]; exact h.uneager⟩

theorem bothExpand_comm (a b : Ty) : bothExpand a b = bothExpand b a := by
  have htable : decide (a.isTable = b.isTable) = decide (b.isTable = a.isTable) := decide_eq_decide.2 eq_comm
  rw [bothExpand, bothExpand, htable, Bool.and_comm a.isAggregate, Bool.and_right_comm]

/-- The same types are compared on the way to a supertype in the other order. -/
theorem Mutual.symm {x y : Ty} (ha : a.Sound) (hb : b.Sound) (h : c.Mutual a b x y) : c.Mutual b a y x := by
  induction h with
  | here h hab hba => exact .here h.symm hba hab
  | @field a b x y h hea heb hk e he f hf _ ih =>
    have hg := NameMap.mem_of_find? hf
    have hxy := ih (ha.part (Ty.mem_parts_of_mem_fields he)) (hb.part (Ty.mem_parts_of_mem_fields hg))
    exact .field (by rw [Ty.equal_comm]; exact h) heb hea hk.symm hg (NameMap.find?_of_mem ha.ordered_fields he) hxy
  | expansion h hab hba hl hea heb _ ih =>
    exact .expansion h.symm hba hab (by rw [Bool.or_comm]; exact hl) heb hea
      (ih (sound_expansion ha hea) (sound_expansion hb heb))

/-- Of types that are not lazy, and not both aggregates, nothing lazy is compared. -/
theorem Mutual.not_lazy {x y : Ty} (hl : (a.isLazy || b.isLazy) = false) (he : (a.isEager && b.isEager) = false)
    (h : c.Mutual a b x y) : x.isLazy = false := by
  cases h with
  | here => exact (Bool.or_eq_false_iff.1 hl).1
  | field _ ha hb =>
    rw [ha, hb] at he
    cases he
  | expansion _ _ _ hl' =>
    rw [hl] at hl'
    cases hl'

theorem Apart.symm (ha : a.Sound) (hb : b.Sound) (h : c.Apart a b) : c.Apart b a :=
  fun x y hxy hx hy hk => (h y x (hxy.symm hb ha) hy hx hk.symm).symm

/-- The hierarchy joins two types in either order. -/
theorem exists_joinKinds_swap (hs : (joinKinds a b).outcome = .ok s) :
    ∃ r, (joinKinds b a).outcome = .ok r ∧ s.equal r = true := by
  unfold joinKinds at hs ⊢
  rw [Kind.join_comm] at hs
  dsimp only at hs ⊢
  have hboth : ∀ {p q : Prop}, ¬ (p ∧ q) → ¬ (q ∧ p) := fun h hqp => h hqp.symm
  split at hs
  · next h =>
    rw [if_pos (h.imp_right (.imp_right (.imp_right hboth)))]
    cases hs
    exact ⟨_, rfl, Ty.equal_self _⟩
  · next h =>
    rw [if_neg fun h' => h (h'.imp_right (.imp_right (.imp_right hboth)))]
    obtain ⟨t, ht, h⟩ := Run.bind_eq_ok_iff.1 hs
    cases h
    refine ⟨(t.withSourcesOf b).withSourcesOf a, Run.bind_eq_ok_iff.2 ⟨t, ht, rfl⟩, ?_⟩
    exact Ty.equal_of_form_eq (by simp [Ty.withSourcesOf]) (by simp [Ty.withSourcesOf])

/-- Eager aggregates of one kind are joined in the other order as well, if their shared fields are. -/
theorem exists_joins_shared_swap (ha : NameMap.Ordered a.fields) (hb : NameMap.Ordered b.fields)
    (h : a.equal b = false) (heb : b.isEager = true) {shape : Shape} {optional : Bool} {fields : List (Bytes × Ty)}
    (hform : a.form = .aggregate shape optional fields) (hk : a.kind = b.kind) {sup : Bytes × Ty → Ty}
    (hshared : ∀ g ∈ b.fields, ∀ f, NameMap.find? a.fields g.1 = some f →
      ∃ r, c.Joins g.2 f r ∧ (sup (g.1, f)).equal r = true) :
    ∃ r, c.Joins b a r ∧
      (Ty.ofForm₂ (.aggregate shape (a.optional || b.optional) (a.sharedFields b sup))
        (Token.common a.token b.token) a b).equal r = true := by
  obtain ⟨shape', optional', fields', hform'⟩ := Ty.isEager_iff.1 heb
  obtain rfl := Ty.shape_eq_of_kind_eq hform hform' hk
  have hswap : ∀ g ∈ b.fields, ∃ r, ∀ f, NameMap.find? a.fields g.1 = some f →
      c.Joins g.2 f r ∧ (sup (g.1, f)).equal r = true := by
    intro g hg
    cases hf : NameMap.find? a.fields g.1 with
    | none => exact ⟨.error, fun f hf' => by cases hf'⟩
    | some f =>
      obtain ⟨r, hr⟩ := hshared g hg f hf
      refine ⟨r, fun f' hf' => ?_⟩
      cases hf'
      exact hr
  have : Nonempty Ty := ⟨.error⟩
  choose! sup' hsup' using hswap
  refine ⟨_, .shared (by rw [Ty.equal_comm]; exact h) (Ty.isEager_iff.2 ⟨_, _, _, hform⟩) hform' hk.symm sup'
    fun g hg f hf => (hsup' g hg f hf).1, Ty.equal_iff.2 ⟨?_, Token.same_common _ _⟩⟩
  rw [Bool.or_comm]
  refine .aggregate (Ty.fieldsAlike_sharedFields ha hb fun e he g hg hname => ?_)
  have hfound := NameMap.find?_of_mem ha he
  rw [hname] at hfound
  have hequal := (hsup' g hg e.2 hfound).2
  rwa [← hname] at hequal

/-- Two types that are joined are joined in the other order as well, to an equal type. -/
theorem exists_joins_swap (ha : a.Sound) (hb : b.Sound) (hd : c.Apart a b) (h : c.Joins a b s) :
    ∃ r, c.Joins b a r ∧ s.equal r = true := by
  induction h with
  | @equal a b h =>
    refine ⟨_, .equal (Ty.equal_symm h), ?_⟩
    have hleft := Ty.equal_trans (Ty.equal_withSourcesOf a b) h
    exact Ty.equal_trans hleft (Ty.equal_symm (Ty.equal_withSourcesOf b a))
  | apart h hea heb hk => exact ⟨_, .apart (by rw [Ty.equal_comm]; exact h) heb hea hk.symm, Ty.equal_self _⟩
  | @shared a b h heb shape optional fields hform hk sup _ ih =>
    have hea : a.isEager = true := Ty.isEager_iff.2 ⟨_, _, _, hform⟩
    refine exists_joins_shared_swap ha.ordered_fields hb.ordered_fields h heb hform hk fun g hg f hf => ?_
    have he := NameMap.mem_of_find? hf
    have hfound := NameMap.find?_of_mem hb.ordered_fields hg
    exact ih (g.1, f) he g.2 hfound (ha.part (Ty.mem_parts_of_mem_fields he))
      (hb.part (Ty.mem_parts_of_mem_fields hg)) fun x y hxy => hd x y (.field h hea heb hk he hfound hxy)
  | either h hab hba hs =>
    obtain ⟨r, hr, hequal⟩ := exists_mutualBound_swap ha hb h hab hba hs (hd _ _ (.here h hab hba))
    exact ⟨r, .either h.symm hba hab hr, hequal⟩
  | left h hab hba => exact ⟨_, .right h.symm hba hab, Ty.equal_self _⟩
  | right h hab hba => exact ⟨_, .left h.symm hba hab, Ty.equal_self _⟩
  | expanded h hab hba hl hx hea heb hp _ ih =>
    obtain ⟨r, hr, hequal⟩ := ih (sound_expansion ha hea) (sound_expansion hb heb)
      fun x y hxy => hd x y (.expansion h hab hba hl hea heb hxy)
    exact ⟨r, .expanded h.symm hba hab (by rw [Bool.or_comm]; exact hl) (by rw [bothExpand_comm]; exact hx) heb hea
      hp.symm hr, hequal⟩
  | closed h hab hba hl hx =>
    exact ⟨_, .closed h.symm hba hab (by rw [Bool.or_comm]; exact hl) (by rw [bothExpand_comm]; exact hx),
      Ty.equal_self _⟩
  | kinds h hab hba hl hs =>
    obtain ⟨r, hr, hequal⟩ := exists_joinKinds_swap hs
    exact ⟨r, .kinds h.symm hba hab (by rw [Bool.or_comm]; exact hl) hr, hequal⟩

/-- If a supertype comes out, so does that in the other order. -/
theorem ends_supertype_swap (ha : a.Sound) (hb : b.Sound) (hd : c.Apart a b) (h : (c.supertype a b).Ends) :
    (c.supertype b a).Ends := by
  obtain ⟨s, hs⟩ := h
  obtain ⟨r, hr, -⟩ := exists_joins_swap ha hb hd (joins_of_supertype ha hb hs)
  exact ⟨r, supertype_of_joins hr⟩

/-- **Supertypes are commutative**: of two types the supertype comes out in both orders or in none, it does if look-ups
end, and what comes out is equal. -/
theorem supertype_comm (ha : a.Sound) (hb : b.Sound) (hd : c.Apart a b) :
    ((c.supertype a b).Ends ↔ (c.supertype b a).Ends) ∧ (c.Answers → (c.supertype a b).Ends) ∧
      ∀ s r, (c.supertype a b).outcome = .ok s → (c.supertype b a).outcome = .ok r → s.equal r = true := by
  refine ⟨⟨ends_supertype_swap ha hb hd, ends_supertype_swap hb ha (hd.symm ha hb)⟩, fun hc => ?_, fun s r hs hr => ?_⟩
  · obtain ⟨s, hs⟩ := exists_joins hc ha hb
    exact ⟨s, supertype_of_joins hs⟩
  · obtain ⟨r', hr', hequal⟩ := exists_joins_swap ha hb hd (joins_of_supertype ha hb hs)
    have hsame := supertype_of_joins hr'
    rw [hr] at hsame
    cases hsame
    exact hequal

/-- The provider of one field. -/
def oneField : Provider Ty :=
  ⟨Bytes.ofString "p", true, [(Bytes.ofString "V", .host (some (.ofForm (Ty.bareForm .string))))], none⟩

/-- A record of a record on demand, a number and an entity. -/
def requiredRecord : Ty :=
  .ofForm (.aggregate .record false
    [(Bytes.ofString "A", .ofForm (.lazy false false (some oneField))),
     (Bytes.ofString "B", .ofForm (Ty.bareForm .number)),
     (Bytes.ofString "C", .node (Ty.bareForm .dataEntity) (some ⟨Bytes.ofString "1", none⟩) ∅)])

/-- The same with fields that may be missing from the record on demand, an amount, and the table that the entity stands
for. -/
def optionalRecord : Ty :=
  .ofForm (.aggregate .record false
    [(Bytes.ofString "A", .ofForm (.lazy false true (some oneField))),
     (Bytes.ofString "B", .ofForm (Ty.bareForm .currency)),
     (Bytes.ofString "C", .ofForm (.aggregate .table false singleColumn.fields))])

theorem apart_optionalRecord (c : Checker) : c.Apart requiredRecord optionalRecord := by
  intro x y hxy hx hy _
  cases hxy with
  | here h => exact absurd rfl h.uneager
  | expansion h _ _ hl => cases hl
  | @field _ _ _ _ _ _ _ _ e he f hf hxy =>
    rcases List.mem_cons.1 he with rfl | he
    · cases hf
      cases hxy with
      | here => decide +kernel
      | field _ ha => cases ha
      | expansion _ hab =>
        -- the two records on demand are of one shape, so that none of them refuses the other
        have hfits : c.exactly.Fits (.ofForm (.lazy false false (some oneField)))
            (.ofForm (.lazy false true (some oneField))) :=
          (fits_lazy_iff ⟨by decide, by decide, by decide⟩ (by decide) rfl).2 (.inl ⟨rfl, rfl, by decide⟩)
        rw [Refuses, accepts_eq_true_iff.2 hfits] at hab
        cases hab
    rcases List.mem_cons.1 he with rfl | he
    · cases hf
      cases (hxy.not_lazy rfl rfl).symm.trans hx
    · obtain rfl := List.mem_singleton.1 he
      cases hf
      cases (hxy.not_lazy rfl rfl).symm.trans hx

theorem supertype_comm_records :
    requiredRecord.Sound ∧ optionalRecord.Sound ∧ singleEntity.Apart requiredRecord optionalRecord ∧
      ∃ s r, (singleEntity.supertype requiredRecord optionalRecord).outcome = .ok s ∧
        (singleEntity.supertype optionalRecord requiredRecord).outcome = .ok r ∧ s.equal r = true := by
  have ha : requiredRecord.Sound := by decide +kernel
  have hb : optionalRecord.Sound := by decide +kernel
  have hd := apart_optionalRecord singleEntity
  obtain ⟨hends, hanswers, hequal⟩ := supertype_comm ha hb hd
  obtain ⟨s, hs⟩ := hanswers answers_singleEntity
  obtain ⟨r, hr⟩ := hends.1 ⟨s, hs⟩
  exact ⟨ha, hb, hd, s, r, hs, hr, hequal s r hs hr⟩

end Checker

end FormulaTypes
