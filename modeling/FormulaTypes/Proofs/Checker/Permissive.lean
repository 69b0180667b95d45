import FormulaTypes.Proofs.Checker.Equality

/-!
# More permissive rules

Rules relax others if they are exact only where these are, keep plain kinds apart only where these do, and let numbers
accept dates and times wherever these do (`Rules.Relaxes`). The order that this makes of the rules is that of what they
accept: rules relax others exactly if they accept whatever these accept (`relaxes_iff_accepts`), for one directory and
with or without audits.

No rule of acceptance asks for a refusal, so that what fits stays fitting, by induction on the source
(`fits_of_relaxes`). For the converse each of the three switches has a pair of types that it alone decides.
-/

namespace FormulaTypes

/-- `wide` is at least as permissive as `narrow`. -/
structure Rules.Relaxes (wide narrow : Rules) : Prop where
  exact : wide.exact = true → narrow.exact = true
  v1 : wide.v1 = true → narrow.v1 = true
  legacyDateTime : narrow.legacyDateTime = true → wide.legacyDateTime = true

namespace Rules.Relaxes

variable {wide narrow : Rules} (h : wide.Relaxes narrow)

include h

theorem kindAccepts {k l : Kind} (haccepts : narrow.kindAccepts k l = true) : wide.kindAccepts k l = true := by
  simp only [Rules.kindAccepts, Bool.or_eq_true, Bool.and_eq_true, Bool.not_eq_true'] at haccepts ⊢
  refine haccepts.imp (Or.imp_right fun hdate => ⟨hdate.1, h.legacyDateTime hdate.2⟩) fun hwidens => ?_
  exact ⟨Bool.eq_false_iff.2 fun hv => by simp [h.v1 hv] at hwidens, hwidens.2⟩

theorem valuesAccept {vs ws : Values} (haccepts : narrow.valuesAccept vs ws = true) :
    wide.valuesAccept vs ws = true := by
  simp only [Rules.valuesAccept_eq, Rules.eachValueAccepted, Bool.or_eq_true, List.all_eq_true] at haccepts ⊢
  refine haccepts.imp_right fun hall e he => ?_
  have hvalue := hall e he
  split at hvalue
  · exact hvalue
  · rw [Bool.not_eq_true'] at hvalue ⊢
    exact Bool.eq_false_iff.2 fun hexact => by simp [h.exact hexact] at hvalue

/-- A field that may be missing under the narrow rules may be so under the wide ones. -/
theorem mayMiss {optional : Bool} (hmiss : (narrow.exact && !optional) = false) :
    (wide.exact && !optional) = false := by
  cases hexact : wide.exact with
  | false => rfl
  | true => rwa [h.exact hexact] at hmiss

end Rules.Relaxes

namespace Checker

variable {c c' : Checker} {dst src : Ty}

/-! ## What fits stays fitting -/

section Relaxes

variable (hr : c'.rules.Relaxes c.rules) (he : c'.entities = c.entities)

include hr

theorem leafAccepts_of_relaxes (h : c.leafAccepts dst src = true) : c'.leafAccepts dst src = true := by
  rw [leafAccepts] at h ⊢
  split
  · next hp => rwa [if_pos hp] at h
  · next hp =>
    rw [if_neg hp] at h
    split
    · next ho => rwa [if_pos ho] at h
    · next ho =>
      rw [if_neg ho] at h
      exact hr.kindAccepts h

theorem fitsFields_of_relaxes
    (hfits : ∀ e ∈ dst.fields, ∀ actual, src.field? e.1 = some actual → c.Fits e.2 actual → c'.Fits e.2 actual)
    (h : c.FitsFields dst src) : c'.FitsFields dst src := by
  rw [fitsFields_iff] at h ⊢
  refine h.imp_right fun hall e he => (hall e he).imp_right ?_
  rintro (⟨actual, hfound, hactual⟩ | ⟨hnone, hmiss⟩)
  · exact .inl ⟨actual, hfound, hfits e he actual hfound hactual⟩
  · exact .inr ⟨hnone, hr.mayMiss hmiss⟩

include he

/-- What fits under the narrow rules fits under the wide ones, by the same rule of acceptance. -/
theorem fits_of_relaxes (h : c.Fits dst src) : c'.Fits dst src := by
  induction src using Ty.weightInduction generalizing dst with
  | step src ih =>
    have hfields : ∀ d : Ty, c.FitsFields d src → c'.FitsFields d src := fun d =>
      fitsFields_of_relaxes hr fun e _ actual hfound => ih actual (Ty.weight_lt_of_field? hfound)
    have haggregate : ∀ d : Ty, c.FitsAggregate d src → c'.FitsAggregate d src := by
      intro d hd
      rw [fitsAggregate_iff] at hd ⊢
      refine hd.imp (fun hlazy => ⟨hlazy.1, hlazy.2.1, hfields d hlazy.2.2⟩) fun heager => ⟨heager.1, ?_⟩
      exact heager.2.imp_right fun hkind => ⟨hkind.1, hfields d hkind.2⟩
    refine FitsRule.fits ?_
    cases fitsRule_of_fits h with
    | free hd hs h => exact .free hd hs h
    | deferred hd hs h => exact .deferred hd hs h
    | @restricted hc hs hd base hbase h => exact .restricted hc hs hd hbase (ih base (weight_ofKind_lt hs hbase) h)
    | aggregate hc hs hform h => exact .aggregate hc hs hform (haggregate dst h)
    | shape hc hs hform hl hk h => exact .shape hc hs hform hl hk h
    | expansion hc hs hform hl hk hx h => exact .expansion hc hs hform hl hk hx (hfields _ h)
    | literals hc hform hs hk h => exact .literals hc hform hs hk (hr.valuesAccept h)
    | token hc hs hform hsrc h => exact .token hc hs hform hsrc h
    | entity hc hs hform heager ht hl hfound h =>
      exact .entity hc hs hform heager ht (he.trans hl) hfound (haggregate _ h)
    | plain hc hs hd hform h => exact .plain hc hs hd hform (leafAccepts_of_relaxes hr h)

end Relaxes

/-! ## What the switches decide -/

/-- Records without a field that is asked for are accepted unless the rules are exact. -/
theorem fits_empty_iff :
    c.Fits (.ofForm (.aggregate .record false [(Bytes.ofString "A", .ofForm (Ty.bareForm .number))]))
      (.ofForm (Ty.bareForm .record)) ↔ c.rules.exact = false := by
  rw [fits_aggregate_iff ⟨by decide, by decide, by decide⟩ (by decide) rfl, fitsAggregate_iff, fitsFields_iff]
  constructor
  · rintro (⟨hlazy, -⟩ | ⟨-, ⟨hvalue, -⟩ | ⟨-, ⟨-, halike⟩ | h⟩⟩)
    · cases hlazy
    · cases hvalue
    · cases halike
    · rcases h _ (List.mem_singleton_self _) with herror | ⟨actual, hfound, -⟩ | ⟨-, hmiss⟩
      · cases herror
      · cases hfound
      · exact (Bool.and_true _).symm.trans hmiss
  · intro hexact
    refine .inr ⟨rfl, .inr ⟨rfl, .inr (List.forall_mem_singleton.2 (.inr (.inr ⟨rfl, ?_⟩)))⟩⟩
    rw [hexact, Bool.false_and]

/-- Amounts of money are accepted as numbers unless the rules keep plain kinds apart. -/
theorem fits_currency_iff :
    c.Fits (.ofForm (Ty.bareForm .number)) (.ofForm (Ty.bareForm .currency)) ↔ c.rules.v1 = false := by
  rw [fits_plain_iff ⟨by decide, by decide, by decide⟩ (by decide) (by decide) (.inl ⟨.number, rfl, rfl⟩)]
  change c.rules.kindAccepts .number .currency = true ↔ c.rules.v1 = false
  simp [Rules.kindAccepts, Kind.isDateTime, Kind.widens]

/-- Dates are accepted as numbers if the rules say so. -/
theorem fits_date_iff :
    c.Fits (.ofForm (Ty.bareForm .number)) (.ofForm (Ty.bareForm .date)) ↔ c.rules.legacyDateTime = true := by
  rw [fits_plain_iff ⟨by decide, by decide, by decide⟩ (by decide) (by decide) (.inl ⟨.number, rfl, rfl⟩)]
  change c.rules.kindAccepts .number .date = true ↔ c.rules.legacyDateTime = true
  simp [Rules.kindAccepts, Kind.isDateTime, Kind.widens]

/-- **Acceptance is monotone in the rules**, and decides their order: with one directory rules accept whatever others
accept exactly if they are at least as permissive. -/
theorem relaxes_iff_accepts (r r' : Rules) (entities : Option Directory) (audit audit' : Bool) :
    r'.Relaxes r ↔ ∀ dst src, (accepts ⟨r, entities, audit⟩ dst src).outcome = .ok true →
      (accepts ⟨r', entities, audit'⟩ dst src).outcome = .ok true := by
  simp only [accepts_eq_true_iff]
  constructor
  · intro hr dst src h
    exact fits_of_relaxes (c := ⟨r, entities, audit⟩) hr rfl h
  · intro h
    refine ⟨fun hexact => ?_, fun hv1 => ?_, fun hlegacy => fits_date_iff.1 (h _ _ (fits_date_iff.2 hlegacy))⟩
    · refine eq_true_of_ne_false fun hfalse => ?_
      rw [fits_empty_iff.1 (h _ _ (fits_empty_iff.2 hfalse))] at hexact
      cases hexact
    · refine eq_true_of_ne_false fun hfalse => ?_
      rw [fits_currency_iff.1 (h _ _ (fits_currency_iff.2 hfalse))] at hv1
      cases hv1

end Checker

end FormulaTypes
