import FormulaTypes.Proofs.Checker.Conversions
import FormulaTypes.Proofs.Checker.Shortcuts

/-!
# Lazy types against eager aggregates

Against an eager aggregate a lazy type and its expansion are interchangeable (`exists_expand_interchangeable`): one is
accepted, accepts and is converted as the other one. A lazy source is never compared as a whole, so its fields are
looked at one by one even where those of the expansion are taken by the short cut; the two come to the same as long as
no field of the aggregate is `void`, which does not accept itself. The table of a lazy record is not an eager table, but
neither of the two is a file or a large image, and nothing else depends on it (`agree_reshape_lazy`).

Of a lazy source nothing matters but the fields that the aggregate asks for, neither for the answer nor for what is
demanded (`accepts_eq_of_field?_eq`).
-/

namespace FormulaTypes

namespace Checker

variable {c : Checker} {f : CoercionFlags} {e l x dst src src' : Ty}

/-! ## Acceptance -/

/-- At a field, only what the source has there matters. -/
theorem follows_checkField {P : Demand → Prop} {name : Bytes} (h : src.field? name = src'.field? name)
    (hP : ∀ d ∈ src.demand name, P d) (expected : Ty) :
    Run.Follows P (c.checkField dst src name expected) (c.checkField dst src' name expected) := by
  rw [checkField_eq, checkField_eq, h]
  split
  · exact Run.follows_self _
  · exact Run.follows_bind (Run.follows_note hP) fun _ => Run.follows_self _

theorem outcome_checkField_congr {name : Bytes} (h : src.field? name = src'.field? name) (expected : Ty) :
    (c.checkField dst src name expected).outcome = (c.checkField dst src' name expected).outcome :=
  (follows_checkField (P := fun _ => True) h (fun _ _ => trivial) expected).outcome_eq

/-- The fields of a lazy source are found as those of its expansion, short cut or not. -/
theorem outcome_checkFields_lazy (h : Expands l x) (ho : NameMap.Ordered e.fields)
    (hv : ∀ d ∈ e.fields, d.2.kind ≠ .void) : (c.checkFields e l).outcome = (c.checkFields e x).outcome := by
  have hwalk : (Run.firstAlong e.fields (c.checkField e l)).outcome =
      (Run.firstAlong e.fields (c.checkField e x)).outcome :=
    Run.outcome_firstAlong_congr fun d _ => outcome_checkField_congr (h.field?_eq d.1).symm d.2
  rw [checkFields_eq, checkFields_eq, if_neg (by simp [h.isLazy]), hwalk]
  split
  · next hshort =>
    simp only [Bool.and_eq_true, Bool.not_eq_true', fieldsEqual_iff] at hshort
    rw [firstAlong_of_fieldsAlike ho hv hshort.1 hshort.2]
  · rfl

/-- An eager aggregate takes another one of its kind by the fields. -/
theorem checkAggregate_eager (hs : src.isEager = true) :
    c.checkAggregate dst src = if dst.kind = src.kind then c.checkFields dst src else reject dst src := by
  obtain ⟨ha, hl⟩ := Ty.of_isEager hs
  have hvalue : src.kind ≠ .optionSetValue := Ty.kind_ne_of_isAggregate ha rfl
  rw [checkAggregate_eq, if_neg (by simp [hl]), if_neg (by simp [hvalue])]

/-- An eager aggregate takes lazy sources of its shape by the fields. -/
theorem check_lazy (he : dst.isEager = true) (hs : src.isLazy = true) :
    c.check dst src = if dst.kind.sameShape src.kind then c.checkFields dst src else reject dst src := by
  obtain ⟨shape, optional, fields, hform⟩ := Ty.isEager_iff.1 he
  obtain ⟨hc, henum⟩ := compared_of_isAggregate (Ty.of_isEager he).1 (Ty.isAggregate_of_isLazy hs)
  rw [check_aggregate hc henum hform, checkAggregate_eq, if_pos hs]

/-- An eager aggregate has the shape of a lazy type if it has the kind of its expansion. -/
theorem Expands.sameShape_iff (h : Expands l x) : e.kind.sameShape l.kind = true ↔ e.kind = x.kind := by
  rw [Kind.sameShape_iff_eq (sameShape_expansion h.isLazy h.expansion?_eq h.isEager), eq_comm]

/-- A lazy source is accepted as its expansion is. -/
theorem outcome_accepts_lazy (h : Expands l x) (he : e.isEager = true) (ho : e.form.Ordered)
    (hv : ∀ d ∈ e.fields, d.2.kind ≠ .void) : (c.accepts e l).outcome = (c.accepts e x).outcome := by
  obtain ⟨shape, optional, fields, hform⟩ := Ty.isEager_iff.1 he
  obtain ⟨hx, hx'⟩ := compared_of_isAggregate (Ty.of_isEager he).1 (Ty.of_isEager h.isEager).1
  rw [accepts, accepts, check_lazy he h.isLazy, check_aggregate hx hx' hform, checkAggregate_eager h.isEager]
  refine (Run.agree_bind (R := fun m m' => m.isNone = m'.isNone) ?_ fun m m' hm => Run.agree_pure hm).outcome_eq
  refine Run.agree_ite h.sameShape_iff (fun _ => ?_) fun _ => Run.agree_pure rfl
  have hfields := outcome_checkFields_lazy (c := c) h (Ty.ordered_fields_of_form ho) hv
  exact Run.agree_of_outcome_eq (fun m => Eq.refl m.isNone) hfields

/-- A lazy destination accepts as its expansion does. -/
theorem outcome_lazy_accepts (h : Expands l x) (he : e.isEager = true) :
    (c.accepts l e).outcome = (c.accepts x e).outcome := by
  obtain ⟨isTable, optional, provider, hform⟩ := Ty.isLazy_iff.1 h.isLazy
  obtain ⟨shape, optional', fields, hform'⟩ := Ty.isEager_iff.1 h.isEager
  obtain ⟨ha, hlazy⟩ := Ty.of_isEager he
  obtain ⟨hl, hl'⟩ := compared_of_isAggregate (Ty.isAggregate_of_isLazy h.isLazy) ha
  obtain ⟨hx, hx'⟩ := compared_of_isAggregate (Ty.of_isEager h.isEager).1 ha
  rw [accepts, accepts, check_aggregate hx hx' hform', checkAggregate_eager he, check_eq, if_neg hl.void,
    if_neg hl.free, if_neg hl.deferred, if_neg (by simp [hl']), hform]
  dsimp only
  rw [checkLazy_eq, if_neg (by simp [hlazy])]
  refine (Run.agree_bind (R := fun m m' => m.isNone = m'.isNone) ?_ fun m m' hm => Run.agree_pure hm).outcome_eq
  refine Run.agree_ite (h.sameShape_iff.trans eq_comm) (fun _ => ?_) fun _ => Run.agree_pure rfl
  refine Run.agree_of_outcome_eq (fun m => Eq.refl m.isNone) ?_
  rw [Run.bind_of_ok (outcome_expand _ _), h.expansion?_eq]

/-! ## Coercion -/

/-- Walks that convert fields come to the same if they do so at each field. -/
theorem outcome_coerceAlong_congr {look look' : Bytes → Ty → Run (Option (Option Coercion))}
    {fields : List (Bytes × Ty)} (h : ∀ d ∈ fields, (look d.1 d.2).outcome = (look' d.1 d.2).outcome) :
    (coerceAlong fields look).outcome = (coerceAlong fields look').outcome := by
  induction fields with
  | nil => rfl
  | cons d fields ih =>
    obtain ⟨hfirst, hrest⟩ := List.forall_mem_cons.1 h
    rw [coerceAlong, coerceAlong]
    refine (Run.agree_bind (R := Eq) (Run.agree_of_outcome_eq (fun _ => rfl) hfirst) ?_).outcome_eq
    rintro (_ | found) _ rfl
    · exact Run.agree_pure rfl
    refine Run.agree_bind (R := Eq) (Run.agree_of_outcome_eq (fun _ => rfl) (ih hrest)) ?_
    rintro more _ rfl
    exact Run.agree_of_outcome_eq (fun _ => rfl) rfl

/-- Kinds that only a source of the same kind is converted to. -/
def KeepsKind (k : Kind) : Prop := k = .file ∨ k = .largeImage

/-- A lazy source and its expansion are given a shape alike, and neither becomes a file or a large image. -/
theorem agree_reshape_lazy (h : Expands l x) :
    Run.Agree (Option.Rel fun s s' : Ty => ∀ k, KeepsKind k → s.kind ≠ k ∧ s'.kind ≠ k) (c.reshape f l e)
      (c.reshape f x e) := by
  have htable := isTable_expansion h.expansion?_eq
  obtain @⟨p, isTable, optional, token, sources, -, -⟩ := h
  rw [reshape, reshape, htable]
  refine Run.agree_ite Iff.rfl (fun _ => Run.agree_pure (.some ?_)) fun _ => ?_
  · rintro k (rfl | rfl) <;> cases isTable <;> constructor <;> intro hk <;> cases hk
  refine Run.agree_ite Iff.rfl (fun _ => ?_) fun _ => Run.agree_pure .none
  refine Run.agree_bind (.ok (Ty.audited_lazy _ _ _ _ _ _) (audited_aggregate _ _ _ _ _ _) ?_) fun _ _ hk =>
    Run.agree_pure (.some hk)
  rintro k (rfl | rfl) <;> constructor <;> intro hk <;> cases hk

/-- A lazy source is converted to an eager aggregate field by field as its expansion is. -/
theorem outcome_coerceAggregate_lazy (h : Expands l x) (he : e.isEager = true) :
    (c.coerceAggregate f l e).outcome = (c.coerceAggregate f x e).outcome := by
  have hlazy := (Ty.of_isEager he).2
  have hl := Ty.isAggregate_of_isLazy h.isLazy
  have hx := (Ty.of_isEager h.isEager).1
  rw [coerceAggregate.eq_def c f l e, coerceAggregate.eq_def c f x e]
  refine (Run.agree_ite ?_ (fun _ => Run.agree_pure rfl) fun _ => ?_).outcome_eq
  · simp [hl, hx, hlazy]
  rw [if_neg (by simp [hlazy]), if_neg (by simp [hlazy])]
  refine Run.agree_bind (R := fun d d' => d = some e ∧ d' = some e) (Run.agree_pure ⟨rfl, rfl⟩) ?_
  rintro _ _ ⟨rfl, rfl⟩
  refine Run.agree_bind (agree_reshape_lazy h) ?_
  rintro _ _ (⟨hshaped⟩ | _)
  swap
  · exact Run.agree_pure rfl
  -- where the kind has to be kept, neither of the two is of that kind
  refine Run.agree_ite ?_ (fun _ => Run.agree_pure rfl) fun _ => ?_
  · exact and_congr_right fun hk => iff_of_true (hshaped e.kind hk).1 (hshaped e.kind hk).2
  refine Run.agree_bind (R := Eq) (Run.agree_of_outcome_eq (fun _ => rfl) ?_) ?_
  · refine outcome_coerceAlong_congr fun d _ => ?_
    rw [Run.bind_of_ok (Run.outcome_note _), Run.bind_of_ok (Run.outcome_note _)]
    split
    · next actual hactual =>
      rw [← h.field?_eq] at hactual
      split
      · next actual' hactual' =>
        rw [hactual] at hactual'
        cases hactual'
        rfl
      · next hnone =>
        rw [hactual] at hnone
        cases hnone
    · next hnone =>
      rw [← h.field?_eq] at hnone
      symm
      split
      · next actual hactual =>
        rw [hnone] at hactual
        cases hactual
      · rfl
  · rintro found _ rfl
    exact Run.agree_of_outcome_eq (fun _ => rfl) rfl

/-- Between aggregates, what is not accepted is converted field by field. -/
theorem coerce_aggregates (hs : src.isAggregate = true) (hd : dst.isAggregate = true) :
    c.coerce f src dst = c.accepts dst src >>= fun accepted =>
      if accepted then pure (some ⟨true, dst⟩) else c.coerceAggregate f src dst := by
  have hsrc : ∀ k : Kind, k.isAggregate = false → src.kind ≠ k := fun _ => Ty.kind_ne_of_isAggregate hs
  have hdst : ∀ k : Kind, k.isAggregate = false → dst.kind ≠ k := fun _ => Ty.kind_ne_of_isAggregate hd
  have hkinds : ¬ (src.kind = .namedValue ∨ dst.kind = .namedValue ∨ src.kind = .void ∨ dst.kind = .void ∨
      dst.kind = .error) := by
    simp only [not_or]
    exact ⟨hsrc _ rfl, hdst _ rfl, hsrc _ rfl, hdst _ rfl, hdst _ rfl⟩
  rw [coerce, if_neg (hsrc _ rfl)]
  refine congrArg _ (funext fun accepted => if_congr Iff.rfl rfl ?_)
  rw [if_neg hkinds, if_neg (not_or.2 ⟨hsrc _ rfl, hsrc _ rfl⟩), dif_neg (hsrc _ rfl), if_neg (hsrc _ rfl), if_pos hd]

/-- A lazy source is converted to an eager aggregate as its expansion is. -/
theorem outcome_coerce_lazy (h : Expands l x) (he : e.isEager = true) (ho : e.form.Ordered)
    (hv : ∀ d ∈ e.fields, d.2.kind ≠ .void) : (c.coerce f l e).outcome = (c.coerce f x e).outcome := by
  have ha := (Ty.of_isEager he).1
  rw [coerce_aggregates (Ty.isAggregate_of_isLazy h.isLazy) ha, coerce_aggregates (Ty.of_isEager h.isEager).1 ha]
  have haccepts := outcome_accepts_lazy (c := c) h he ho hv
  refine (Run.agree_bind (R := Eq) (Run.agree_of_outcome_eq (fun _ => rfl) haccepts) ?_).outcome_eq
  rintro accepted _ rfl
  refine Run.agree_ite Iff.rfl (fun _ => Run.agree_pure rfl) fun _ => ?_
  exact Run.agree_of_outcome_eq (fun _ => rfl) (outcome_coerceAggregate_lazy h he)

/-! ## Interchange -/

/-- **A lazy type and its expansion are interchangeable against eager aggregates** without `void` among their fields:
both are accepted, both accept, and both are converted to the same with the same safety, or neither. -/
theorem exists_expand_interchangeable (c : Checker) {l : Ty} {p : Provider Ty} (hp : l.provider? = some p)
    (hx : p.expandable = true) (ho : l.form.Ordered) :
    ∃ x, (l.expand c.audit).outcome = .ok (some x) ∧
      ∀ e : Ty, e.isEager = true → e.form.Ordered → (∀ d ∈ e.fields, d.2.kind ≠ .void) →
        (c.accepts e l).outcome = (c.accepts e x).outcome ∧ (c.accepts l e).outcome = (c.accepts x e).outcome ∧
          ∀ f, (c.coerce f l e).outcome = (c.coerce f x e).outcome := by
  obtain ⟨x, h⟩ := exists_expands hp hx ho
  refine ⟨x, ?_, fun e he hoe hv => ⟨?_, ?_, fun f => ?_⟩⟩
  · rw [outcome_expand, h.expansion?_eq]
  · exact outcome_accepts_lazy h he hoe hv
  · exact outcome_lazy_accepts h he
  · exact outcome_coerce_lazy h he hoe hv

/-- A lazy record that has a number under one name and finds nothing under another one. -/
def lazyNumber : Ty :=
  .ofForm (.lazy false false
    (some ⟨Bytes.ofString "p", true,
      [(Bytes.ofString "a", .host (some (.ofForm (Ty.bareForm .number)))), (Bytes.ofString "b", .host none)], none⟩))

/-- A table of texts, which a record of a number can be converted to. -/
def textTable : Ty := .ofForm (.aggregate .table false [(Bytes.ofString "a", .ofForm (Ty.bareForm .string))])

theorem exists_expand_interchangeable_textTable :
    textTable.isEager = true ∧ (∀ d ∈ textTable.fields, d.2.kind ≠ .void) ∧
      ∃ x, (lazyNumber.expand true).outcome = .ok (some x) ∧
        (accepts ⟨Rules.standard, none, true⟩ textTable lazyNumber).outcome =
          (accepts ⟨Rules.standard, none, true⟩ textTable x).outcome ∧
        (accepts ⟨Rules.standard, none, true⟩ lazyNumber textTable).outcome =
          (accepts ⟨Rules.standard, none, true⟩ x textTable).outcome ∧
        ∀ f, (coerce ⟨Rules.standard, none, true⟩ f lazyNumber textTable).outcome =
          (coerce ⟨Rules.standard, none, true⟩ f x textTable).outcome := by
  have hv : ∀ d ∈ textTable.fields, d.2.kind ≠ .void := List.forall_mem_singleton.2 (by decide)
  obtain ⟨x, hx, h⟩ := exists_expand_interchangeable ⟨Rules.standard, none, true⟩ (l := lazyNumber) rfl rfl (by decide)
  exact ⟨rfl, hv, x, hx, h textTable rfl (by decide) hv⟩

/-! ## Only what is compared -/

/-- A demand of a field of the source that the destination asks for. -/
def AsksCompared (dst src : Ty) (d : Demand) : Prop := ∃ name ∈ dst.fieldNames, d ∈ src.demand name

/-- Two lazy sources that have the same in the fields of a destination are walked through alike. -/
theorem follows_checkFields (he : dst.isEager = true) (hs : src.isLazy = true) (hs' : src'.isLazy = true)
    (h : ∀ name ∈ dst.fieldNames, src.field? name = src'.field? name) :
    Run.Follows (AsksCompared dst src) (c.checkFields dst src) (c.checkFields dst src') := by
  rw [checkFields_eq, checkFields_eq, if_neg (by simp [hs]), if_neg (by simp [hs'])]
  refine Run.follows_firstAlong fun e hmem => ?_
  have hn : e.1 ∈ dst.fieldNames := by
    rw [Ty.fieldNames_of_isEager he]
    exact List.mem_map_of_mem hmem
  exact follows_checkField (h e.1 hn) (fun d hd => ⟨e.1, hn, hd⟩) e.2

/-- **Acceptance looks at nothing but the fields that it compares.** -/
theorem accepts_eq_of_field?_eq (c : Checker) {dst s t : Ty} (he : dst.isEager = true) (hs : s.isLazy = true)
    (hk : s.kind = t.kind) (h : ∀ name ∈ dst.fieldNames, s.field? name = t.field? name) :
    (c.accepts dst s).outcome = (c.accepts dst t).outcome ∧
      Run.Agree (fun m m' => m.map Mismatch.path = m'.map Mismatch.path) (c.check dst s) (c.check dst t) ∧
      ∀ d ∈ (c.check dst s).demands, AsksCompared dst s d ∨ d ∈ (c.check dst t).demands := by
  have ht : t.isLazy = true := by rwa [Ty.isLazy, ← hk]
  have hfollows := follows_checkFields (c := c) he hs ht h
  have hagree : Run.Agree (fun m m' => m.map Mismatch.path = m'.map Mismatch.path) (c.check dst s) (c.check dst t) := by
    rw [check_lazy he hs, check_lazy he ht, hk]
    refine Run.agree_ite Iff.rfl (fun _ => ?_) fun _ => Run.agree_pure rfl
    exact Run.agree_of_outcome_eq (fun m => Eq.refl (m.map Mismatch.path)) hfollows.outcome_eq
  refine ⟨?_, hagree, ?_⟩
  · rw [accepts, accepts]
    refine (Run.agree_bind hagree fun m m' hm => Run.agree_pure ?_).outcome_eq
    rw [← Option.isNone_map (f := Mismatch.path), hm, Option.isNone_map]
  · rw [check_lazy he hs, check_lazy he ht, hk]
    split
    · exact hfollows.demands
    · intro d hd
      cases hd

/-- A record of a number. -/
def numberCard : Ty := .ofForm (.aggregate .record false [(Bytes.ofString "a", .ofForm (Ty.bareForm .number))])

/-- A lazy record that has a text there. -/
def openCard : Ty :=
  .ofForm (.lazy false false
    (some ⟨Bytes.ofString "p", true,
      [(Bytes.ofString "a", .host (some (.ofForm (Ty.bareForm .string)))), (Bytes.ofString "b", .host none)], none⟩))

/-- Another one, with other fields, that may not be expanded and comes from elsewhere. -/
def closedCard : Ty :=
  .node (.lazy false true
    (some ⟨Bytes.ofString "q", false,
      [(Bytes.ofString "a", .bound (.ofForm (Ty.bareForm .string))), (Bytes.ofString "c", .bound numberCard)], some 4⟩))
    (some ⟨Bytes.ofString "t", none⟩) (.ofList [Bytes.ofString "s"])

theorem accepts_eq_of_field?_eq_cards :
    numberCard.isEager = true ∧ openCard.isLazy = true ∧ openCard.kind = closedCard.kind ∧
      (∀ name ∈ numberCard.fieldNames, openCard.field? name = closedCard.field? name) ∧
      (check ⟨Rules.standard, none, true⟩ numberCard openCard).outcome =
        .ok (some ⟨[Bytes.ofString "a"], .ofForm (Ty.bareForm .number), some (.ofForm (Ty.bareForm .string))⟩) ∧
      (accepts ⟨Rules.standard, none, true⟩ numberCard openCard).outcome =
        (accepts ⟨Rules.standard, none, true⟩ numberCard closedCard).outcome ∧
      Run.Agree (fun m m' => m.map Mismatch.path = m'.map Mismatch.path)
        (check ⟨Rules.standard, none, true⟩ numberCard openCard)
        (check ⟨Rules.standard, none, true⟩ numberCard closedCard) := by
  have hkind : openCard.kind = closedCard.kind := rfl
  have hfields : ∀ name ∈ numberCard.fieldNames, openCard.field? name = closedCard.field? name :=
    List.forall_mem_singleton.2 rfl
  have htext : (check ⟨Rules.standard, none, true⟩ (.ofForm (Ty.bareForm .number))
      (.ofForm (Ty.bareForm .string))).outcome =
      .ok (some ⟨[], .ofForm (Ty.bareForm .number), some (.ofForm (Ty.bareForm .string))⟩) := by
    rw [check]
    rfl
  have hcheck : (check ⟨Rules.standard, none, true⟩ numberCard openCard).outcome =
      .ok (some ⟨[Bytes.ofString "a"], .ofForm (Ty.bareForm .number), some (.ofForm (Ty.bareForm .string))⟩) := by
    rw [check_lazy rfl rfl, if_pos (by decide), checkFields_eq, if_neg (by decide), Run.firstAlong_eq_some_iff]
    refine ⟨[], _, [], rfl, List.forall_mem_nil _, ?_⟩
    exact checkField_eq_some_iff.2 ⟨by decide, .inl ⟨_, _, rfl, htext, rfl⟩⟩
  obtain ⟨haccepts, hpath, -⟩ := accepts_eq_of_field?_eq ⟨Rules.standard, none, true⟩ rfl rfl hkind hfields
  exact ⟨rfl, rfl, hkind, hfields, hcheck, haccepts, hpath⟩

end Checker

end FormulaTypes
