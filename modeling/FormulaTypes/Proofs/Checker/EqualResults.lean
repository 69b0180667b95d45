import FormulaTypes.Proofs.Checker.Agreement
import FormulaTypes.Proofs.Checker.Validity

/-!
# Equal types have equal results

Every operation of a checker on two types agrees with the same operation on their twins: acceptance
(`agree_accepts`), supertypes (`agree_supertype`), intersections (`agree_intersection`), unions (`agree_union`) and
coercions (`agree_coerce`). So the sources of types, the signs of zeros, the payloads of what is not a number, and the
way in which a type was built are of no influence.
-/

namespace FormulaTypes

/-- The token that two aggregates share, up to the meaning of tokens. -/
theorem Token.common_congr {s s' t t' : Option Token} (hs : Token.same s s' = true) (ht : Token.same t t' = true) :
    Token.same (Token.common s t) (Token.common s' t') = true := by
  rw [Token.common, Token.common, Token.isSome_eq_of_same hs, Token.same_congr hs ht]
  split
  · exact hs
  · rfl

namespace Ty

variable {a a' b b' : Ty}

/-- Equality of types as a relation. -/
abbrev Equal (t u : Ty) : Prop := t.equal u = true

theorem withSourcesOf_congr (h : a.Equal a') (b b' : Ty) : (a.withSourcesOf b).Equal (a'.withSourcesOf b') :=
  equal_trans (equal_withSourcesOf a b) (equal_trans h (equal_symm (equal_withSourcesOf a' b')))

theorem chainKind_congr (h : a.Equal a') : a.chainKind = a'.chainKind := by
  rw [chainKind, chainKind, kind_eq_of_equal h, superkind_eq_of_equal h]

theorem isLazy_congr (h : a.Equal a') : a.isLazy = a'.isLazy := by
  rw [isLazy, isLazy, kind_eq_of_equal h]

theorem isEager_congr (h : a.Equal a') : a.isEager = a'.isEager := by
  rw [isEager, isEager, kind_eq_of_equal h]

theorem isTable_congr (h : a.Equal a') : a.isTable = a'.isTable := by
  rw [isTable, isTable, kind_eq_of_equal h]

theorem isAggregate_congr (h : a.Equal a') : a.isAggregate = a'.isAggregate := by
  rw [isAggregate, isAggregate, kind_eq_of_equal h]

theorem token_isNone_congr (h : a.Equal a') : a.token.isNone = a'.token.isNone := by
  rw [← Option.not_isSome, ← Option.not_isSome, Token.isSome_eq_of_same (alike_of_equal h).2]

theorem standsFirst_congr (ha : a.Equal a') (hb : b.Equal b') : a.standsFirst b = a'.standsFirst b' := by
  rw [standsFirst, standsFirst, isLazy_congr ha, isLazy_congr hb, token_isNone_congr ha, token_isNone_congr hb,
    kind_eq_of_equal ha, kind_eq_of_equal hb, digest_eq_of_equal ha, digest_eq_of_equal hb]

theorem isExpansionOf_congr (ha : a.Equal a') (hb : b.Equal b') : a.isExpansionOf b = a'.isExpansionOf b' := by
  rw [isExpansionOf, isExpansionOf, isAggregate_congr ha, kind_eq_of_equal hb,
    Token.isSome_eq_of_same (alike_of_equal ha).2, Token.same_congr (alike_of_equal ha).2 (alike_of_equal hb).2]

end Ty

namespace Checker

open Ty (Equal Twin Akin)

variable {c : Checker} {a a' b b' : Ty} {backing : Bytes → Kind}

theorem Keyed.exactly (hc : c.Keyed) : c.exactly.Keyed := hc

theorem agree_accepts (hc : c.Keyed) (ha : Twin backing a a') (hb : Twin backing b b') :
    Run.Agree Eq (c.accepts a b) (c.accepts a' b') :=
  Run.agree_bind (agree_check hc ha.akin hb) fun _ _ h => Run.agree_pure h

/-! ## Supertypes -/

theorem agree_mutualBound (ha : a.Equal a') (hb : b.Equal b') :
    Run.Agree Equal (mutualBound a b) (mutualBound a' b') := by
  rw [mutualBound, mutualBound, Ty.isLazy_congr ha, Ty.isLazy_congr hb, Ty.kind_eq_of_equal ha,
    Ty.kind_eq_of_equal hb, Ty.standsFirst_congr ha hb]
  refine Run.agree_ite Iff.rfl (fun _ => ?_) fun _ => ?_
  · refine Run.agree_bind (Run.agree_of_outcome_eq Eq.refl rfl) fun t t' ht => Run.agree_pure ?_
    subst ht
    exact Ty.withSourcesOf_congr (Ty.withSourcesOf_congr (Ty.equal_self t) a a') b b'
  · refine Run.agree_ite Iff.rfl (fun _ => ?_) fun _ => ?_
    · exact Run.agree_pure (Ty.withSourcesOf_congr ha b b')
    · exact Run.agree_pure (Ty.withSourcesOf_congr hb a a')

theorem agree_joinKinds (ha : a.Equal a') (hb : b.Equal b') : Run.Agree Equal (joinKinds a b) (joinKinds a' b') := by
  rw [joinKinds, joinKinds, Ty.chainKind_congr ha, Ty.chainKind_congr hb, Ty.kind_eq_of_equal ha,
    Ty.kind_eq_of_equal hb]
  refine Run.agree_ite Iff.rfl (fun _ => Run.agree_pure (Ty.equal_self _)) fun _ => ?_
  refine Run.agree_bind (Run.agree_of_outcome_eq Eq.refl rfl) fun t t' ht => Run.agree_pure ?_
  subst ht
  exact Ty.withSourcesOf_congr (Ty.withSourcesOf_congr (Ty.equal_self t) a a') b b'

theorem agree_aggregateLike (ha : a.Equal a') (hb : b.Equal b') (he : a.isEager = true) {fields fields' : NameMap Ty}
    (hf : FieldsAlike fields fields') :
    Run.Agree Equal (c.aggregateLike a b fields) (c.aggregateLike a' b' fields') := by
  obtain ⟨halike, htoken⟩ := Ty.alike_of_equal ha
  obtain ⟨shape, optional, old, hform⟩ := Ty.isEager_iff.1 he
  generalize hform' : a'.form = form' at halike
  rw [hform] at halike
  cases halike with
  | aggregate =>
    refine .ok (outcome_aggregateLike hform fields) (outcome_aggregateLike hform' fields') (Ty.equal_iff.2 ⟨?_, ?_⟩)
    · rw [Ty.optional_eq_of_equal ha, Ty.optional_eq_of_equal hb]
      exact .aggregate hf
    · exact Token.common_congr htoken (Ty.alike_of_equal hb).2

theorem agree_supertype (hc : c.Keyed) (ha : Twin backing a a') (hb : Twin backing b b') :
    Run.Agree Equal (c.supertype a b) (c.supertype a' b') := by
  -- Nothing is lazy here, so that both sides go down to their fields together and the weight of one will do.
  induction b using Ty.weightInduction generalizing a a' b' with
  | step b ih =>
    rw [supertype.eq_def c a b, supertype.eq_def c a' b']
    refine Run.agree_ite (by rw [Ty.equal_congr ha.equal hb.equal]) (fun _ => ?_) fun _ => ?_
    · exact Run.agree_pure (Ty.withSourcesOf_congr ha.equal b b')
    refine Run.agree_ite (by rw [Ty.isEager_congr ha.equal, Ty.isEager_congr hb.equal]) (fun he => ?_) fun _ => ?_
    · refine Run.agree_ite (by rw [Ty.kind_eq_of_equal ha.equal, Ty.kind_eq_of_equal hb.equal])
        (fun _ => Run.agree_pure (Ty.equal_self _)) fun _ => ?_
      refine Run.agree_bind (R := NameMap.Paired Equal) (Run.agree_collectAlong ?_) fun fields fields' hf => ?_
      · refine ha.fields.imp fun e f h => ⟨h.1, ?_⟩
        have hfound := hb.fields.find? e.1
        rw [← h.1]
        generalize hfb : NameMap.find? b.fields e.1 = found at hfound
        generalize NameMap.find? b'.fields e.1 = found' at hfound
        cases hfound with
        | none => exact Run.agree_pure .none
        | @some fb fb' htwin =>
          refine Run.agree_bind (ih fb (Ty.weight_lt_of_find?_fields hfb) h.2 htwin) fun s s' hs => Run.agree_pure ?_
          rw [Ty.kind_eq_of_equal hs]
          split
          · exact .none
          · exact .some hs
      · exact agree_aggregateLike ha.equal hb.equal (Bool.and_eq_true_iff.1 he).1 hf
    refine Run.agree_bind (agree_accepts hc.exactly ha hb) fun ab ab' hab => ?_
    refine Run.agree_bind (agree_accepts hc.exactly hb ha) fun ba ba' hba => ?_
    subst hab
    subst hba
    refine Run.agree_ite Iff.rfl (fun _ => agree_mutualBound ha.equal hb.equal) fun _ => ?_
    refine Run.agree_ite Iff.rfl (fun _ => Run.agree_pure (Ty.withSourcesOf_congr ha.equal b b')) fun _ => ?_
    refine Run.agree_ite Iff.rfl (fun _ => Run.agree_pure (Ty.withSourcesOf_congr hb.equal a a')) fun _ => ?_
    refine Run.agree_ite (by rw [ha.isLazy_eq, hb.isLazy_eq]) (fun hl => ?_) fun _ => agree_joinKinds ha.equal hb.equal
    rw [ha.left.isLazy_eq_false, hb.left.isLazy_eq_false] at hl
    cases hl

/-! ## Intersections and unions -/

theorem agree_intersection (ha : Twin backing a a') (hb : Twin backing b b') :
    Run.Agree Equal (c.intersection a b) (c.intersection a' b') := by
  induction b using Ty.weightInduction generalizing a a' b' with
  | step b ih =>
    have hka := Ty.kind_eq_of_equal ha.equal
    have hkb := Ty.kind_eq_of_equal hb.equal
    rw [intersection.eq_def c a b, intersection.eq_def c a' b']
    refine Run.agree_ite (by rw [Ty.equal_congr ha.equal hb.equal]) (fun _ => ?_) fun _ => ?_
    · exact Run.agree_pure (Ty.withSourcesOf_congr ha.equal b b')
    refine Run.agree_ite (by rw [ha.isLazy_eq, hb.isLazy_eq]) (fun hl => ?_) fun _ => ?_
    · rw [ha.left.isLazy_eq_false, hb.left.isLazy_eq_false] at hl
      cases hl
    refine Run.agree_ite (by rw [hka, hkb]) (fun _ => Run.agree_pure (Ty.equal_self _)) fun _ => ?_
    refine Run.agree_ite (by rw [Ty.isAggregate_congr ha.equal]) (fun _ => ?_) fun haggregate => ?_
    · exact Run.agree_pure (Ty.withSourcesOf_congr ha.equal b b')
    have heager : a.isEager = true := Ty.isEager_of_not_lazy (by simpa using haggregate) ha.left.isLazy_eq_false
    refine Run.agree_bind (R := NameMap.Paired Equal) (Run.agree_collectAlong ?_) fun fields fields' hf => ?_
    · refine ha.fields.imp fun e f h => ⟨h.1, ?_⟩
      have hfound := hb.fields.find? e.1
      rw [← h.1]
      generalize hfb : NameMap.find? b.fields e.1 = found at hfound
      generalize NameMap.find? b'.fields e.1 = found' at hfound
      cases hfound with
      | none => exact Run.agree_pure .none
      | @some fb fb' htwin =>
        refine Run.agree_ite ?_ (fun _ => ?_) fun _ => Run.agree_pure ?_
        · rw [Ty.isAggregate_congr h.2.equal, Ty.isAggregate_congr htwin.equal]
        · refine Run.agree_bind (ih fb (Ty.weight_lt_of_find?_fields hfb) h.2 htwin) fun s s' hs => Run.agree_pure ?_
          rw [Ty.kind_eq_of_equal hs]
          split
          · exact .none
          · exact .some hs
        · rw [Ty.kind_eq_of_equal h.2.equal, Ty.kind_eq_of_equal htwin.equal]
          split
          · exact .some h.2.equal
          · exact .none
    · exact agree_aggregateLike ha.equal hb.equal heager hf

/-- Merges of equal types, both with or both without conflict. -/
structure MergesAlike (m m' : Merge) : Prop where
  type : m.type.Equal m'.type
  clean : m.clean = m'.clean

theorem agree_mergeLeaves (hc : c.Keyed) (ha : Twin backing a a') (hb : Twin backing b b') :
    Run.Agree MergesAlike (c.mergeLeaves a b) (c.mergeLeaves a' b') := by
  rw [mergeLeaves, mergeLeaves, Ty.isExpansionOf_congr ha.equal hb.equal, Ty.isExpansionOf_congr hb.equal ha.equal,
    Ty.kind_eq_of_equal ha.equal, Ty.kind_eq_of_equal hb.equal]
  refine Run.agree_ite Iff.rfl (fun _ => Run.agree_pure ⟨hb.equal, rfl⟩) fun _ => ?_
  refine Run.agree_ite Iff.rfl (fun _ => Run.agree_pure ⟨ha.equal, rfl⟩) fun _ => ?_
  refine Run.agree_bind (agree_supertype hc ha hb) fun s s' hs => Run.agree_pure ⟨hs, ?_⟩
  rw [Ty.kind_eq_of_equal hs]

theorem agree_union (hc : c.Keyed) (ha : Twin backing a a') (hb : Twin backing b b') :
    Run.Agree MergesAlike (c.union a b) (c.union a' b') := by
  induction a using Ty.weightInduction generalizing a' b b' with
  | step a ih =>
    have hka := Ty.kind_eq_of_equal ha.equal
    have hkb := Ty.kind_eq_of_equal hb.equal
    have hab := Ty.withSourcesOf_congr ha.equal b b'
    have hba := Ty.withSourcesOf_congr hb.equal a a'
    rw [union.eq_def c a b, union.eq_def c a' b']
    refine Run.agree_ite (by rw [hka, hkb]) (fun _ => Run.agree_pure ⟨hba, rfl⟩) fun _ => ?_
    refine Run.agree_ite (by rw [hka, hkb]) (fun _ => Run.agree_pure ⟨hab, rfl⟩) fun _ => ?_
    refine Run.agree_ite (by rw [Ty.isEager_congr ha.equal, Ty.isEager_congr hb.equal]) (fun he => ?_) fun _ => ?_
    · refine Run.agree_ite (by rw [hka, hkb]) (fun _ => Run.agree_pure ⟨Ty.equal_self _, rfl⟩) fun _ => ?_
      refine Run.agree_bind (R := NameMap.Paired MergesAlike) (Run.agree_collectAlong ?_) fun ms ms' hms => ?_
      · refine hb.fields.imp fun e f h => ⟨h.1, ?_⟩
        have hfound := ha.fields.find? e.1
        rw [← h.1]
        generalize hfa : NameMap.find? a.fields e.1 = found at hfound
        generalize NameMap.find? a'.fields e.1 = found' at hfound
        cases hfound with
        | none => exact Run.agree_pure (.some ⟨h.2.equal, rfl⟩)
        | @some fa fa' htwin =>
          have hke := Ty.kind_eq_of_equal h.2.equal
          have hkf := Ty.kind_eq_of_equal htwin.equal
          refine Run.agree_ite (by rw [hkf]) (fun _ => Run.agree_pure (.some ⟨h.2.equal, rfl⟩)) fun _ => ?_
          refine Run.agree_ite (by rw [hke]) (fun _ => Run.agree_pure (.some ⟨htwin.equal, rfl⟩)) fun _ => ?_
          refine Run.agree_ite ?_ (fun _ => ?_) fun _ => ?_
          · rw [Ty.isEager_congr h.2.equal, Ty.isEager_congr htwin.equal]
          · exact Run.agree_bind (ih fa (Ty.weight_lt_of_find?_fields hfa) htwin h.2) fun _ _ hm =>
              Run.agree_pure (.some hm)
          · exact Run.agree_bind (agree_mergeLeaves hc htwin h.2) fun _ _ hm => Run.agree_pure (.some hm)
      · have hold : NameMap.Paired Equal a.fields a'.fields := Ty.fieldsAlike_of_equal ha.equal
        have hfields := hold.insertAll (hms.map fun m m' (hm : MergesAlike m m') => hm.type)
        have heager := (Bool.and_eq_true_iff.1 he).1
        refine Run.agree_bind (agree_aggregateLike ha.equal hb.equal heager hfields) fun t t' ht => Run.agree_pure ?_
        exact ⟨ht, hms.all_eq fun m m' (hm : MergesAlike m m') => hm.clean⟩
    refine Run.agree_bind (agree_accepts hc.exactly ha hb) fun ab ab' hab' => ?_
    refine Run.agree_bind (agree_accepts hc.exactly hb ha) fun ba ba' hba' => ?_
    subst hab'
    subst hba'
    refine Run.agree_ite Iff.rfl (fun _ => ?_) fun _ => ?_
    · exact Run.agree_bind (agree_mutualBound ha.equal hb.equal) fun t t' ht => Run.agree_pure ⟨ht, rfl⟩
    refine Run.agree_ite Iff.rfl (fun _ => Run.agree_pure ⟨hab, rfl⟩) fun _ => ?_
    refine Run.agree_ite Iff.rfl (fun _ => Run.agree_pure ⟨hba, rfl⟩) fun _ => ?_
    refine Run.agree_ite (by rw [ha.isLazy_eq, hb.isLazy_eq]) (fun hl => ?_) fun _ => ?_
    · rw [ha.left.isLazy_eq_false, hb.left.isLazy_eq_false] at hl
      cases hl
    refine Run.agree_bind (agree_supertype hc ha hb) fun s s' hs => Run.agree_pure ⟨hs, ?_⟩
    rw [Ty.kind_eq_of_equal hs]

/-! ## Coercions -/

section Coercions

variable {f : CoercionFlags} {src src' dst dst' : Ty}

/-- Coercions to equal types, both safe or both not. -/
structure CoercionsAlike (r r' : Coercion) : Prop where
  safe : r.safe = r'.safe
  type : r.type.Equal r'.type

theorem agree_coerceAlong {look look' : Bytes → Ty → Run (Option (Option Coercion))}
    {fields fields' : List (Bytes × Ty)}
    (h : List.Forall₂ (fun e f => e.1 = f.1 ∧
      Run.Agree (Option.Rel (Option.Rel CoercionsAlike)) (look e.1 e.2) (look' f.1 f.2)) fields fields') :
    Run.Agree (Option.Rel (NameMap.Paired CoercionsAlike)) (coerceAlong fields look) (coerceAlong fields' look') := by
  induction h with
  | nil => exact Run.agree_pure (.some .nil)
  | cons he _ ih =>
    rw [coerceAlong, coerceAlong]
    refine Run.agree_bind he.2 fun found found' hfound => ?_
    cases hfound with
    | none => exact Run.agree_pure .none
    | some hanswer =>
      refine Run.agree_bind ih fun more more' hmore => ?_
      cases hmore with
      | none => exact Run.agree_pure .none
      | some hmore =>
        cases hanswer with
        | some hr => exact Run.agree_pure (.some (.cons ⟨he.1, hr⟩ hmore))
        | none => exact Run.agree_pure (.some hmore)

/-- Aggregates are given the same shape. -/
theorem agree_reshape (hs : Twin backing src src') (hd : dst.Equal dst') (ha : src.isAggregate = true) :
    Run.Agree (Option.Rel fun x y : Ty => x.kind = y.kind) (c.reshape f src dst) (c.reshape f src' dst') := by
  have heager := Ty.isEager_of_not_lazy ha hs.left.isLazy_eq_false
  have heager' : src'.isEager = true := Ty.isEager_congr hs.equal ▸ heager
  rw [reshape, reshape, Ty.isTable_congr hs.equal, Ty.isTable_congr hd]
  refine Run.agree_ite Iff.rfl (fun _ => Run.agree_pure (.some (Ty.kind_eq_of_equal hs.equal))) fun _ => ?_
  refine Run.agree_ite Iff.rfl (fun _ => ?_) fun _ => Run.agree_pure .none
  obtain ⟨table, htable, -⟩ := Ty.exists_toTable c.audit hs.left.sound (.inl ha) none
  obtain ⟨table', htable', -⟩ := Ty.exists_toTable c.audit hs.right.sound (.inl (Ty.of_isEager heager').1) none
  have hkind : table.kind = table'.kind := by
    rw [(isTable_toTable htable).2 heager, (isTable_toTable htable').2 heager']
  exact Run.agree_bind (.ok htable htable' hkind) fun _ _ h => Run.agree_pure (.some h)

theorem agree_coerced (hd : dst.Equal dst') (he : dst.isEager = true) {entries entries' : List (Bytes × Coercion)}
    (h : NameMap.Paired CoercionsAlike entries entries') :
    Run.Agree CoercionsAlike (c.coerced dst entries) (c.coerced dst' entries') := by
  obtain ⟨halike, -⟩ := Ty.alike_of_equal hd
  obtain ⟨shape, optional, old, hform⟩ := Ty.isEager_iff.1 he
  generalize hform' : dst'.form = form' at halike
  rw [hform] at halike
  cases halike with
  | aggregate =>
    refine .ok (outcome_coerced hform entries) (outcome_coerced hform' entries') ⟨?_, ?_⟩
    · exact h.all_eq fun r r' (hr : CoercionsAlike r r') => hr.safe
    · exact Ty.equal_iff.2 ⟨.aggregate (h.map fun r r' (hr : CoercionsAlike r r') => hr.type), rfl⟩

theorem leafConversion?_congr (hs : Twin backing src src') (k : Kind) :
    leafConversion? src k = leafConversion? src' k := by
  rw [leafConversion?, leafConversion?, Ty.kind_eq_of_equal hs.equal, hs.backingKind_eq]

theorem agree_coerceAggregate (hs : Twin backing src src') (hd : Twin backing dst dst') (ha : dst.isAggregate = true)
    (ih : ∀ name actual actual', src.field? name = some actual → Twin backing actual actual' →
      ∀ {expected expected'}, Twin backing expected expected' →
      Run.Agree (Option.Rel CoercionsAlike) (c.coerce f.nested actual expected) (c.coerce f.nested actual' expected')) :
    Run.Agree (Option.Rel CoercionsAlike) (c.coerceAggregate f src dst) (c.coerceAggregate f src' dst') := by
  have hkd := Ty.kind_eq_of_equal hd.equal
  have heager := Ty.isEager_of_not_lazy ha hd.left.isLazy_eq_false
  rw [coerceAggregate.eq_def c f src dst, coerceAggregate.eq_def c f src' dst']
  refine Run.agree_ite ?_ (fun _ => Run.agree_pure .none) fun hsrc => ?_
  · rw [Ty.isAggregate_congr hs.equal, hs.isLazy_eq, hd.isLazy_eq]
  simp only [Bool.or_eq_true, Bool.not_eq_true', not_or, Bool.not_eq_false] at hsrc
  refine Run.agree_ite (by rw [hd.isLazy_eq]) (fun hl => ?_) fun _ => ?_
  · rw [hd.left.isLazy_eq_false] at hl
    cases hl
  refine Run.agree_bind (R := fun x y => x = some dst ∧ y = some dst') (Run.agree_pure ⟨rfl, rfl⟩) ?_
  rintro _ _ ⟨rfl, rfl⟩
  refine Run.agree_bind (agree_reshape hs hd.equal hsrc.1) ?_
  rintro _ _ (⟨hshaped⟩ | _)
  swap
  · exact Run.agree_pure .none
  refine Run.agree_ite (by rw [hkd, hshaped]) (fun _ => Run.agree_pure .none) fun _ => ?_
  refine Run.agree_bind (agree_coerceAlong ?_) ?_
  · refine hd.fields.imp fun e e' h => ⟨h.1, ?_⟩
    refine Run.agree_bind (R := Eq) (.ok rfl rfl rfl) fun _ _ _ => ?_
    have hfield := hs.field? e.1
    rw [← h.1]
    generalize hactual : src.field? e.1 = found at hfield
    generalize src'.field? e.1 = found' at hfield
    cases hfield with
    | none =>
      refine Run.agree_pure ?_
      rw [Ty.optional_eq_of_equal hd.equal]
      split
      · exact .some .none
      · exact .none
    | some htwin =>
      refine Run.agree_bind (ih e.1 _ _ hactual htwin h.2) fun r r' hr => Run.agree_pure ?_
      cases hr with
      | none => exact .none
      | some hr => exact .some (.some hr)
  · rintro _ _ (⟨hentries⟩ | _)
    · exact Run.agree_bind (agree_coerced hd.equal heager hentries) fun _ _ hr => Run.agree_pure (.some hr)
    · exact Run.agree_pure .none

theorem agree_coerce (hc : c.Keyed) (hs : Twin backing src src') (hd : Twin backing dst dst') :
    Run.Agree (Option.Rel CoercionsAlike) (c.coerce f src dst) (c.coerce f src' dst') := by
  induction src using Ty.weightInduction generalizing f src' dst dst' with
  | step src ih =>
    have hks := Ty.kind_eq_of_equal hs.equal
    have hkd := Ty.kind_eq_of_equal hd.equal
    have hdst : Run.Agree (Option.Rel CoercionsAlike) (pure (some ⟨true, dst⟩)) (pure (some ⟨true, dst'⟩)) :=
      Run.agree_pure (.some ⟨rfl, hd.equal⟩)
    rw [coerce.eq_def c f src dst, coerce.eq_def c f src' dst']
    refine Run.agree_ite (by rw [hks]) (fun _ => Run.agree_pure .none) fun _ => ?_
    refine Run.agree_bind (agree_accepts hc hd hs) fun accepted accepted' haccepted => ?_
    subst haccepted
    refine Run.agree_ite Iff.rfl (fun _ => hdst) fun _ => ?_
    refine Run.agree_ite (by rw [hks, hkd]) (fun _ => Run.agree_pure .none) fun _ => ?_
    refine Run.agree_ite (by rw [hks]) (fun _ => hdst) fun _ => ?_
    by_cases he : src.kind = .enum
    · rw [dif_pos he, dif_pos (hks ▸ he), ← Ty.superkind_eq_of_equal hs.equal]
      generalize hplain : Ty.ofKind src.superkind = found
      cases found with
      | error fault => exact .fault rfl rfl
      | ok base => exact ih base (weight_ofKind_lt he hplain) (Ty.twin_ofKind hplain) hd
    rw [dif_neg he, dif_neg (hks ▸ he)]
    refine Run.agree_ite (by rw [hks]) (fun _ => Run.agree_pure ?_) fun _ => ?_
    · rw [hkd]
      split
      · exact .some ⟨rfl, hd.equal⟩
      · exact .none
    refine Run.agree_ite (by rw [Ty.isAggregate_congr hd.equal]) (fun ha => ?_) fun _ => ?_
    · refine agree_coerceAggregate hs hd ha fun name actual actual' hactual htwin _ _ hexpected => ?_
      exact ih actual (Ty.weight_lt_of_field? hactual) htwin hexpected
    refine Run.agree_ite (by rw [Ty.isAggregate_congr hs.equal]) (fun _ => Run.agree_pure .none) fun _ => ?_
    refine Run.agree_pure ?_
    rw [leafConversion?_congr hs, hkd]
    cases leafConversion? src' dst'.kind with
    | none => exact .none
    | some safe => exact .some ⟨rfl, hd.equal⟩

end Coercions

/-! ## Results -/

/-- Settled sources have nothing to expand, whatever the destination. -/
theorem LooksUp.walks (hc : c.LooksUp) : c.Walks (fun _ => True) (Ty.Settled backing) where
  dstPart _ _ := trivial
  srcPart h hpart := h.part hpart
  base h he := by
    obtain ⟨base, hbase, -⟩ := Ty.exists_ofKind (Ty.superkind_isPrimitive h.sound.valid he)
    exact ⟨base, hbase, Ty.settled_ofKind hbase⟩
  providers _ k _ klazy := by
    rw [k.isLazy_eq_false] at klazy
    cases klazy
  entity {t} _ _ := by
    obtain ⟨found, hfound⟩ := ends_expandEntity hc t
    exact ⟨found, hfound, fun _ _ => ⟨trivial, fun _ _ => trivial⟩⟩

theorem LooksUp.covers (hc : c.LooksUp) : c.Covers (Ty.Settled backing) where
  sound h := h.sound
  part h hpart := h.part hpart
  expansion h hx := by
    rw [expansion_of_not_lazy h.isLazy_eq_false hx]
    exact h
  base h he := hc.walks.base h he
  decides _ k := fits_or_refuses_of_ends (hc.walks.ends_check trivial k)
  decidesExactly _ k := fits_or_refuses_of_ends (hc.walks.exactly.ends_check trivial k)

/-- **Equal types have equal results**: if the directory knows entities by their keys, then every operation agrees with
the same operation on equal types, for settled types in which tokens of one key have one kind behind them. If looking up
an entity ends, so do all of them. -/
theorem results_agree_of_equal (hc : c.Keyed) (ha : a.Settled backing) (ha' : a'.Settled backing)
    (hb : b.Settled backing) (hb' : b'.Settled backing) (haa : a.equal a' = true) (hbb : b.equal b' = true) :
    (c.accepts a b).outcome = (c.accepts a' b').outcome ∧
      Run.Agree Equal (c.supertype a b) (c.supertype a' b') ∧
      Run.Agree Equal (c.intersection a b) (c.intersection a' b') ∧
      Run.Agree MergesAlike (c.union a b) (c.union a' b') ∧
      (∀ f, Run.Agree (Option.Rel CoercionsAlike) (c.coerce f a b) (c.coerce f a' b')) ∧
      (c.LooksUp → (c.accepts a b).Ends ∧ (c.supertype a b).Ends ∧ (c.intersection a b).Ends ∧ (c.union a b).Ends ∧
        ∀ f, (c.coerce f a b).Ends) := by
  have hta : Twin backing a a' := ⟨haa, ha, ha'⟩
  have htb : Twin backing b b' := ⟨hbb, hb, hb'⟩
  refine ⟨(agree_accepts hc hta htb).outcome_eq, agree_supertype hc hta htb, agree_intersection hta htb,
    agree_union hc hta htb, fun f => agree_coerce hc hta htb, fun hlooks => ?_⟩
  have hcovers : c.Covers (Ty.Settled backing) := hlooks.covers
  exact ⟨hcovers.ends_accepts ha hb, (hcovers.gives_supertype ha hb).ends, (hcovers.gives_intersection ha hb).ends,
    (hcovers.gives_union ha hb).ends, fun f => (hcovers.gives_coerce ha hb).ends⟩

/-- A record of an enum of one number, an entity and a value of an option set. -/
def enumRecord (number : Number.Double) (sources : NameSet) : Ty :=
  .node (.aggregate .record false
    [(Bytes.ofString "A", .node (.enum .number (.ofList [(Bytes.ofString "x", .number number)])) none sources),
     (Bytes.ofString "B", .node (Ty.bareForm .dataEntity) (some ⟨Bytes.ofString "t", none⟩) sources),
     (Bytes.ofString "C", .node (Ty.bareForm .optionSetValue) (some ⟨Bytes.ofString "u", some .number⟩) sources)])
    none sources

/-- The kinds behind its tokens. -/
def enumBacking (key : Bytes) : Kind := if key = Bytes.ofString "u" then .number else .invalid

theorem keyed_singleEntity : singleEntity.Keyed := by
  rintro look s t ⟨⟩ -
  rfl

/-- The two zeros, and two payloads of what is not a number. -/
theorem results_agree_of_equal_enumRecord :
    singleEntity.Keyed ∧ singleEntity.LooksUp ∧
      (enumRecord ⟨0⟩ ∅).Settled enumBacking ∧ (enumRecord ⟨0x8000000000000000⟩ otherSource).Settled enumBacking ∧
      (enumRecord ⟨0x7FF8000000000000⟩ ∅).Settled enumBacking ∧
      (enumRecord ⟨0x7FF8000000000001⟩ otherSource).Settled enumBacking ∧
      (enumRecord ⟨0⟩ ∅).equal (enumRecord ⟨0x8000000000000000⟩ otherSource) = true ∧
      (enumRecord ⟨0x7FF8000000000000⟩ ∅).equal (enumRecord ⟨0x7FF8000000000001⟩ otherSource) = true ∧
      (singleEntity.supertype (enumRecord ⟨0⟩ ∅) (enumRecord ⟨0x7FF8000000000000⟩ ∅)).Ends ∧
      Run.Agree Equal (singleEntity.supertype (enumRecord ⟨0⟩ ∅) (enumRecord ⟨0x7FF8000000000000⟩ ∅))
        (singleEntity.supertype (enumRecord ⟨0x8000000000000000⟩ otherSource)
          (enumRecord ⟨0x7FF8000000000001⟩ otherSource)) := by
  have ha : (enumRecord ⟨0⟩ ∅).Settled enumBacking := ⟨by decide +kernel, by decide +kernel, by decide +kernel⟩
  have ha' : (enumRecord ⟨0x8000000000000000⟩ otherSource).Settled enumBacking :=
    ⟨by decide +kernel, by decide +kernel, by decide +kernel⟩
  have hb : (enumRecord ⟨0x7FF8000000000000⟩ ∅).Settled enumBacking :=
    ⟨by decide +kernel, by decide +kernel, by decide +kernel⟩
  have hb' : (enumRecord ⟨0x7FF8000000000001⟩ otherSource).Settled enumBacking :=
    ⟨by decide +kernel, by decide +kernel, by decide +kernel⟩
  have haa : (enumRecord ⟨0⟩ ∅).equal (enumRecord ⟨0x8000000000000000⟩ otherSource) = true := by decide +kernel
  have hbb : (enumRecord ⟨0x7FF8000000000000⟩ ∅).equal (enumRecord ⟨0x7FF8000000000001⟩ otherSource) = true := by
    decide +kernel
  obtain ⟨-, hsupertype, -, -, -, hends⟩ := results_agree_of_equal keyed_singleEntity ha ha' hb hb' haa hbb
  exact ⟨keyed_singleEntity, answers_singleEntity.looksUp, ha, ha', hb, hb', haa, hbb,
    (hends answers_singleEntity.looksUp).2.1, hsupertype⟩

end Checker

end FormulaTypes
