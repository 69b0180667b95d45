import FormulaTypes.Proofs.Checker.CoercionSubtype
import FormulaTypes.Proofs.Checker.Validity

/-!
# Records that become tables

A record becomes a table of one row at the top only, and only if both flags ask for it. Flags that do not promote
convert alike (`coerce_eq_of_promotes_eq`), and those for fields never promote (`coerce_nested`). Flags that promote
make a difference only where an aggregate that is no table is to become one (`coerce_eq_of_not_promotable`). It does so
field by field, and without such flags not at all (`converts_promotable`).
-/

namespace FormulaTypes

/-- The flags let a record become a table. -/
def CoercionFlags.promotes (f : CoercionFlags) : Bool := f.aggregate && f.top

theorem CoercionFlags.promotes_nested (f : CoercionFlags) : f.nested.promotes = false := Bool.and_false _

/-- An aggregate that is no table, where a table is asked for. -/
structure Promotable (src dst : Ty) : Prop where
  aggregate : src.isAggregate = true
  record : src.isTable = false
  table : dst.isTable = true

namespace Checker

variable {c : Checker} {f g : CoercionFlags} {src dst : Ty}

/-! ## Runs that are the same -/

/-- Walks that do the same at each field are the same. -/
theorem coerceAlong_congr {look look' : Bytes → Ty → Run (Option (Option Coercion))} {fields : List (Bytes × Ty)}
    (h : ∀ e ∈ fields, look e.1 e.2 = look' e.1 e.2) : coerceAlong fields look = coerceAlong fields look' := by
  induction fields with
  | nil => rfl
  | cons e fields ih =>
    rw [coerceAlong, coerceAlong, h e List.mem_cons_self, ih fun e he => h e (List.mem_cons_of_mem _ he)]

/-- What follows the expansion of what is lazy depends on the expansion only. -/
theorem expandLazy_congr {β : Type} {k k' : Option Ty → Run β} (audit : Bool)
    (h : k dst.expansion? = k' dst.expansion?) :
    (if dst.isLazy = true then dst.expand audit >>= k else pure (some dst) >>= k) =
      if dst.isLazy = true then dst.expand audit >>= k' else pure (some dst) >>= k' := by
  split
  · refine Run.bind_congr_of_ok fun found hfound => ?_
    rw [outcome_expand, Except.ok.injEq] at hfound
    rw [← hfound, h]
  · next hl =>
    refine Run.bind_congr_of_ok fun found hfound => ?_
    cases hfound
    rwa [expansion?_of_not_lazy (by simpa using hl)] at h

/-- Flags matter for the shape of a source only where a record may become a table. -/
theorem reshape_congr (hs : src.isAggregate = true) (h : Promotable src dst → f.promotes = g.promotes) :
    c.reshape f src dst = c.reshape g src dst := by
  rw [reshape, reshape, Bool.and_assoc, Bool.and_assoc]
  refine ite_congr rfl (fun _ => rfl) fun hshape => ?_
  cases hd : dst.isTable with
  | false => rfl
  | true =>
    have hsame : (f.aggregate && f.top) = (g.aggregate && g.top) := h ⟨hs, by simpa [hd] using hshape, hd⟩
    rw [hsame]

/-- Aggregates are converted alike if they are given the same shape and their fields are converted alike. -/
theorem coerceAggregate_congr (h : Promotable src dst → f.promotes = g.promotes)
    (hfields : ∀ name actual, src.field? name = some actual → ∀ expected,
      c.coerce f.nested actual expected = c.coerce g.nested actual expected) :
    c.coerceAggregate f src dst = c.coerceAggregate g src dst := by
  rw [coerceAggregate.eq_def c f src dst, coerceAggregate.eq_def c g src dst]
  refine ite_congr rfl (fun _ => rfl) fun hsrc => expandLazy_congr _ ?_
  simp only [Bool.or_eq_true, Bool.not_eq_true', not_or, Bool.not_eq_false] at hsrc
  cases hx : dst.expansion? with
  | none => rfl
  | some wanted =>
    have hreshape : c.reshape f src wanted = c.reshape g src wanted := by
      refine reshape_congr hsrc.1 fun hp => h ⟨hp.aggregate, hp.record, ?_⟩
      rw [← isTable_expansion hx]
      exact hp.table
    dsimp only
    rw [hreshape]
    refine Run.bind_congr_of_ok fun shaped _ => ?_
    cases shaped with
    | none => rfl
    | some shaped =>
      refine ite_congr rfl (fun _ => rfl) fun _ => congrArg (· >>= _) (coerceAlong_congr fun e _ => ?_)
      refine congrArg (_ >>= ·) (funext fun _ => ?_)
      split
      · next actual hactual => rw [hfields e.1 actual hactual e.2]
      · rfl

/-- Types are converted alike if enums are converted alike as the kind of their literals, and aggregates by their
fields. -/
theorem coerce_congr
    (hbase : src.kind = .enum → ∀ base, Ty.ofKind src.superkind = .ok base → c.coerce f base dst = c.coerce g base dst)
    (haggregate : c.coerceAggregate f src dst = c.coerceAggregate g src dst) :
    c.coerce f src dst = c.coerce g src dst := by
  rw [coerce.eq_def c f src dst, coerce.eq_def c g src dst]
  refine if_congr Iff.rfl rfl (congrArg (_ >>= ·) (funext fun _ => ?_))
  refine if_congr Iff.rfl rfl (if_congr Iff.rfl rfl (if_congr Iff.rfl rfl ?_))
  split
  · next he =>
    split
    · rfl
    · next base hplain => exact hbase he base hplain
  · rw [haggregate]

/-- **Flags that promote alike convert alike.** -/
theorem coerce_eq_of_promotes_eq (h : f.promotes = g.promotes) (src dst : Ty) :
    c.coerce f src dst = c.coerce g src dst := by
  induction src using Ty.weightInduction generalizing f g dst with
  | step src ih =>
    refine coerce_congr (fun he base hbase => ih base (weight_ofKind_lt he hbase) h dst) ?_
    refine coerceAggregate_congr (fun _ => h) fun name actual hactual expected => ?_
    refine ih actual (Ty.weight_lt_of_field? hactual) ?_ expected
    rw [CoercionFlags.promotes_nested, CoercionFlags.promotes_nested]

/-- Fields are converted as without any flag. -/
theorem coerce_nested (actual expected : Ty) :
    c.coerce f.nested actual expected = c.coerce ⟨false, false⟩ actual expected :=
  coerce_eq_of_promotes_eq f.promotes_nested actual expected

/-- Where no record is to become a table, all flags convert alike. -/
theorem coerce_eq_of_not_promotable (hs : src.isValid = true) (h : ¬ Promotable src dst) :
    c.coerce f src dst = c.coerce g src dst := by
  refine coerce_congr (fun he base hbase => ?_) ?_
  · -- The literals of a valid enum are of a kind without fields, where the walk along fields ends at once.
    obtain ⟨hkind, hne⟩ := kind_ofKind hbase
    have hplain : base.isAggregate = false := by
      rw [Ty.isAggregate, hkind]
      exact (Kind.of_isPrimitive (Ty.superkind_isPrimitive hs he)).2.1
    refine coerce_congr (fun he' => absurd (hkind.symm.trans he') hne) ?_
    rw [coerceAggregate, coerceAggregate, if_pos (by simp [hplain]), if_pos (by simp [hplain])]
  · refine coerceAggregate_congr (fun hp => absurd hp h) fun name actual _ expected => ?_
    rw [coerce_nested, coerce_nested]

/-! ## What is promoted -/

theorem isTable_eq_of_sameShape {t u : Ty} (h : t.kind.sameShape u.kind = true) : t.isTable = u.isTable := by
  rw [Ty.isTable, Ty.isTable]
  rcases Kind.sameShape_cases h with ⟨ht, hu⟩ | ⟨ht, hu⟩ <;> rw [ht, hu] <;> rfl

/-- Aggregates fit only tables into tables. -/
theorem isTable_eq_of_fits (hd : dst.isAggregate = true) (hs : src.isAggregate = true) (h : c.Fits dst src) :
    dst.isTable = src.isTable := by
  obtain ⟨hc, hne⟩ := compared_of_isAggregate hd hs
  cases hl : dst.isLazy with
  | true =>
    obtain ⟨isTable, optional, provider, hform⟩ := Ty.isLazy_iff.1 hl
    rcases (fits_lazy_iff hc hne hform).1 h with ⟨-, hk, -⟩ | ⟨-, hshape, -⟩
    · rw [Ty.isTable, Ty.isTable, hk]
    · exact (isTable_eq_of_sameShape hshape).symm
  | false =>
    obtain ⟨shape, optional, fields, hform⟩ := Ty.isEager_iff.1 (Ty.isEager_of_not_lazy hd hl)
    rcases fitsAggregate_iff.1 ((fits_aggregate_iff hc hne hform).1 h) with ⟨-, hshape, -⟩ | ⟨-, ⟨hk, -⟩ | ⟨hk, -⟩⟩
    · exact isTable_eq_of_sameShape hshape
    · exact absurd hk (Ty.kind_ne_of_isAggregate hs rfl)
    · rw [Ty.isTable, Ty.isTable, hk]

theorem isAggregate_of_isTable {t : Ty} (h : t.isTable = true) : t.isAggregate = true := by
  rw [Ty.isTable, Bool.or_eq_true, decide_eq_true_eq, decide_eq_true_eq] at h
  rw [Ty.isAggregate]
  rcases h with h | h <;> rw [h] <;> rfl

/-- What becomes a table was asked to, and its fields are converted one by one. -/
theorem converts_promotable {r : Coercion} (h : Promotable src dst) (hr : c.Converts f src dst r) :
    f.promotes = true ∧ ∃ wanted, dst.expansion? = some wanted ∧
      ∀ e ∈ wanted.fields, ∀ actual, src.field? e.1 = some actual → ∃ r, c.Converts f.nested actual e.2 r := by
  have hd := isAggregate_of_isTable h.table
  have hrefused : c.Refuses dst src := by
    cases hr with
    | accepted _ hfits =>
      have htable := isTable_eq_of_fits hd h.aggregate hfits
      rw [h.table, h.record] at htable
      cases htable
    | absent hc | restricted hc | untyped hc | plain hc | fields hc => exact hc.refused
  obtain ⟨wanted, shaped, hx, -, hshape, -, hfields⟩ := converts_aggregate hr hrefused h.aggregate hd
  refine ⟨?_, wanted, hx, fun e he actual hactual => ?_⟩
  · rcases reshape_cases hshape with ⟨htable, -⟩ | ⟨-, -, haggregate, htop, -⟩
    · rw [isTable_expansion hx, h.table, h.record] at htable
      cases htable
    · rw [CoercionFlags.promotes, haggregate, htop]
      rfl
  · rcases hfields e he with ⟨actual', r', hactual', hr'⟩ | ⟨hnone, -⟩
    · rw [hactual] at hactual'
      cases hactual'
      exact ⟨r', hr'⟩
    · rw [hactual] at hnone
      cases hnone

/-- **Records become tables at the top only**: unless both flags are given, they convert alike, and so do both of them
unless an aggregate that is no table stands where a table is asked for. Only both flags convert such an aggregate, and
if they do, then the fields that it shares with the table can be converted without any flag. If looking up entities
gives answers, all conversions end. -/
theorem coerce_promotes_top (c : Checker) (hs : src.Sound) (hd : dst.Sound) :
    c.coerce ⟨true, false⟩ src dst = c.coerce ⟨false, false⟩ src dst ∧
      c.coerce ⟨false, true⟩ src dst = c.coerce ⟨false, false⟩ src dst ∧
      (¬ Promotable src dst → c.coerce ⟨true, true⟩ src dst = c.coerce ⟨false, false⟩ src dst) ∧
      (Promotable src dst → (∀ r, (c.coerce ⟨false, false⟩ src dst).outcome ≠ .ok (some r)) ∧
        ∀ r, (c.coerce ⟨true, true⟩ src dst).outcome = .ok (some r) → ∀ name actual expected,
          src.field? name = some actual → dst.field? name = some expected →
            ∃ r, (c.coerce ⟨false, false⟩ actual expected).outcome = .ok (some r)) ∧
      (c.Answers → ∀ f, (c.coerce f src dst).Ends) := by
  have hplain : ∀ f : CoercionFlags, f.promotes = false → c.coerce f src dst = c.coerce ⟨false, false⟩ src dst :=
    fun f hf => coerce_eq_of_promotes_eq hf src dst
  refine ⟨hplain _ rfl, hplain _ rfl, coerce_eq_of_not_promotable hs.valid, fun hp => ⟨fun r hr => ?_, ?_⟩,
    fun hc f => (hc.covers.gives_coerce hs hd).ends⟩
  · obtain ⟨hpromotes, -⟩ := converts_promotable hp (converts_of_coerce hr)
    cases hpromotes
  · intro r hr name actual expected hactual hexpected
    obtain ⟨-, wanted, hx, hfields⟩ := converts_promotable hp (converts_of_coerce hr)
    rw [← field?_expansion hd.ordered hx, ← find?_fields_expansion hx] at hexpected
    obtain ⟨r', hr'⟩ := hfields (name, expected) (NameMap.mem_of_find? hexpected) actual hactual
    exact ⟨r', by rw [← coerce_nested, coerce_of_converts hr']⟩

/-- A record around another type. -/
def wrapped (t : Ty) : Ty := .ofForm (.aggregate .record false [(Bytes.ofString "A", t)])

/-- A record becomes a table at the top, and stays what it is inside another record. -/
theorem coerce_promotes_top_namedRecord :
    namedRecord.Sound ∧ demandedNumbers.Sound ∧ (wrapped namedRecord).Sound ∧ (wrapped demandedNumbers).Sound ∧
      Promotable namedRecord demandedNumbers ∧ ¬ Promotable (wrapped namedRecord) (wrapped demandedNumbers) ∧
      (auditor.coerce ⟨true, true⟩ namedRecord demandedNumbers).outcome =
        .ok (some ⟨false, .ofForm (.aggregate .table true [(Bytes.ofString "A", .ofForm (Ty.bareForm .number))])⟩) ∧
      (auditor.coerce ⟨false, false⟩ namedRecord demandedNumbers).outcome = .ok none ∧
      (∃ r, (auditor.coerce ⟨false, false⟩ namedTexts (.ofForm (Ty.bareForm .number))).outcome = .ok (some r)) ∧
      auditor.coerce ⟨true, true⟩ (wrapped namedRecord) (wrapped demandedNumbers) =
        auditor.coerce ⟨false, false⟩ (wrapped namedRecord) (wrapped demandedNumbers) := by
  have hs : namedRecord.Sound := by decide +kernel
  have hd : demandedNumbers.Sound := by decide +kernel
  have hs' : (wrapped namedRecord).Sound := by decide +kernel
  have hd' : (wrapped demandedNumbers).Sound := by decide +kernel
  have hp : Promotable namedRecord demandedNumbers := ⟨rfl, rfl, rfl⟩
  have hp' : ¬ Promotable (wrapped namedRecord) (wrapped demandedNumbers) := by
    rintro ⟨-, -, htable⟩
    cases htable
  have hr := coerce_of_converts converts_namedRecord
  obtain ⟨-, -, -, hpromoted, hends⟩ := coerce_promotes_top auditor hs hd
  obtain ⟨hnever, hfields⟩ := hpromoted hp
  refine ⟨hs, hd, hs', hd', hp, hp', hr, ?_, hfields _ hr (Bytes.ofString "A") _ _ rfl rfl, ?_⟩
  · obtain ⟨_ | r, h⟩ := hends answers_auditor ⟨false, false⟩
    · exact h
    · exact absurd h (hnever r)
  · exact (coerce_promotes_top auditor hs' hd').2.2.1 hp'

end Checker

end FormulaTypes
