import FormulaTypes.Checker.Acceptance
import FormulaTypes.Proofs.Run
import FormulaTypes.Proofs.Ty.Equality
import FormulaTypes.Proofs.Ty.Form

/-!
# What fits

A source fits its destination if the check of the two ends without a mismatch (`Checker.Fits`). The rules are stated
once, one lemma for each form of the destination, as equivalences:

* rules that look at kinds only: `not_void_of_fits`, `fits_of_free`, `fits_deferred_iff`, `fits_restricted_iff`;
* rules by the form of the destination, for pairs that none of these decides (`Compared`): `fits_aggregate_iff`,
  `fits_lazy_iff`, `fits_enum_iff`, `fits_plain_iff`;
* the fields of a destination: `fitsFields_iff`;
* entities, which are compared as what the directory knows of them: `fits_entity_iff`.

Whatever fits does so by one of these rules (`fitsRule_of_fits`).
-/

namespace FormulaTypes

theorem Rules.valuesAccept_eq (r : Rules) (vs ws : Values) :
    r.valuesAccept vs ws = (vs.equal ws || r.eachValueAccepted vs ws) := by
  rw [Rules.valuesAccept, Rules.valuesBy, Bool.true_and]

namespace Checker

/-- The source fits its destination. -/
def Fits (c : Checker) (dst src : Ty) : Prop := (c.check dst src).outcome = .ok none

/-- The source fits an eager aggregate. -/
def FitsAggregate (c : Checker) (dst src : Ty) : Prop := (c.checkAggregate dst src).outcome = .ok none

/-- The source has what the fields of the destination ask for. -/
def FitsFields (c : Checker) (dst src : Ty) : Prop := (c.checkFields dst src).outcome = .ok none

variable {c : Checker} {dst src : Ty}

theorem acceptIf_eq_none_iff {test : Bool} : (acceptIf test dst src).outcome = .ok none ↔ test = true := by
  cases test <;> simp [acceptIf, accept, reject]

theorem reject_ne_none : (reject dst src).outcome ≠ .ok none := by
  simp [reject]

/-- What `accepts` says of types that fit. -/
theorem accepts_eq_true_iff : (c.accepts dst src).outcome = .ok true ↔ c.Fits dst src := by
  rw [accepts, Run.bind_eq_ok_iff, Fits]
  constructor
  · rintro ⟨mismatch, hcheck, htrue⟩
    cases mismatch with
    | none => exact hcheck
    | some m => cases htrue
  · intro h
    exact ⟨none, h, rfl⟩

/-! ## The rules, one by one -/

theorem checkField_eq {name : Bytes} {expected : Ty} : c.checkField dst src name expected =
    (if expected.kind = .error then accept
    else do
      Run.note (src.demand name)
      match src.field? name with
      | some actual => do
        let m ← c.check expected actual
        pure (m.map (·.under name))
      | none => if c.rules.exact && !dst.optional then pure (some ⟨[name], expected, none⟩) else accept) := by
  rw [checkField, fieldBy]
  refine if_congr Iff.rfl rfl (congrArg _ ?_)
  funext _
  split
  · next actual hfound => rw [hfound]
  · next hfound => rw [hfound]

theorem checkFields_eq : c.checkFields dst src =
    if !src.isLazy && fieldsEqual dst.fields src.fields then accept
    else Run.firstAlong dst.fields (c.checkField dst src) := by
  rw [checkFields, fieldsBy, Bool.true_and]
  rfl

theorem checkAggregate_eq : c.checkAggregate dst src =
    if src.isLazy then
      if dst.kind.sameShape src.kind then c.checkFields dst src else reject dst src
    else if src.kind = .optionSetValue ∧
        (dst.selection?.any fun column => Token.compatible column.token src.token) then accept
    else if dst.kind = src.kind then c.checkFields dst src
    else reject dst src := by
  rw [checkAggregate, aggregateBy]
  rfl

theorem checkLazy_eq : c.checkLazy dst src =
    (do
      if src.isLazy then
        if src.kind = dst.kind then acceptIf (← sameLazyShape dst.provider? src.provider?) dst src else reject dst src
      else if src.kind.sameShape dst.kind then
        match ← dst.expand c.audit with
        | some expanded => c.checkFields expanded src
        | none => reject dst src
      else reject dst src) := by
  rw [checkLazy, lazyBy]
  rfl

theorem checkEntity_eq : c.checkEntity dst src =
    (do
      match ← Run.lift (dst.expandEntity c.audit c.entities) with
      | some table =>
        let expanded ← if src.isTable then pure table else Run.lift (table.toRecord c.audit none)
        c.checkAggregate expanded src
      | none => reject dst src) := by
  rw [checkEntity, entityBy]
  rfl

theorem check_eq : c.check dst src =
    if dst.kind = .void ∨ src.kind = .void then reject dst src
    else if src.kind = .objNull ∨ dst.kind = .error ∨ src.kind = .unknown then accept
    else if src.kind = .deferred then acceptIf (dst.kind ≠ .unknown) dst src
    else if src.kind = .enum ∧ dst.kind ≠ .enum then
      match Ty.ofKind src.superkind with
      | .error fault => Run.fail fault
      | .ok base => do acceptIf (← c.check dst base).isNone dst src
    else
      match dst.form with
      | .aggregate _ _ _ => c.checkAggregate dst src
      | .lazy _ _ _ => c.checkLazy dst src
      | .enum superkind values =>
        acceptIf (src.kind = .enum && superkind = src.superkind && c.rules.valuesAccept values src.values) dst src
      | .leaf .dataEntity _ =>
        if src.kind = .dataEntity && Token.compatible dst.token src.token then accept
        else if src.isEager then c.checkEntity dst src
        else reject dst src
      | .leaf _ _ | .choices _ _ => acceptIf (c.leafAccepts dst src) dst src := by
  rw [check, checkBy]
  refine if_congr Iff.rfl rfl (if_congr Iff.rfl rfl (if_congr Iff.rfl rfl ?_))
  by_cases hr : src.kind = .enum ∧ dst.kind ≠ .enum
  · rw [dif_pos hr, if_pos hr]
    split
    · next fault hfault => rw [hfault]
    · next base hbase => rw [hbase]
  · rw [dif_neg hr, if_neg hr]
    rfl

/-! ## Rules that look at kinds only -/

/-- Nothing fits `void`, and `void` fits nothing. -/
theorem not_void_of_fits (h : c.Fits dst src) : dst.kind ≠ .void ∧ src.kind ≠ .void := by
  rw [← not_or]
  intro hv
  rw [Fits, check_eq, if_pos hv] at h
  exact reject_ne_none h

/-- Some sources fit everything, and everything fits `error`. -/
theorem fits_of_free (hd : dst.kind ≠ .void) (hs : src.kind ≠ .void)
    (h : src.kind = .objNull ∨ dst.kind = .error ∨ src.kind = .unknown) : c.Fits dst src := by
  rw [Fits, check_eq, if_neg (not_or.2 ⟨hd, hs⟩), if_pos h]
  rfl

theorem fits_deferred_iff (hd : dst.kind ≠ .void ∧ dst.kind ≠ .error) (hs : src.kind = .deferred) :
    c.Fits dst src ↔ dst.kind ≠ .unknown := by
  rw [Fits, check_eq, if_neg (by simp [hs, hd]), if_neg (by simp [hs, hd]), if_pos hs, acceptIf_eq_none_iff]
  exact decide_eq_true_iff

/-- None of the rules that look at kinds only decides the pair. -/
structure Compared (dst src : Ty) : Prop where
  void : ¬ (dst.kind = .void ∨ src.kind = .void)
  free : ¬ (src.kind = .objNull ∨ dst.kind = .error ∨ src.kind = .unknown)
  deferred : src.kind ≠ .deferred

/-- An enum fits what is no enum if the kind of its literals does. -/
theorem fits_restricted_iff (h : Compared dst src) (hs : src.kind = .enum) (hd : dst.kind ≠ .enum) :
    c.Fits dst src ↔ ∃ base, Ty.ofKind src.superkind = .ok base ∧ c.Fits dst base := by
  rw [Fits, check_eq, if_neg h.void, if_neg h.free, if_neg h.deferred, if_pos ⟨hs, hd⟩]
  split
  · next fault hfault =>
    constructor
    · intro hfail
      cases hfail
    · rintro ⟨base, hbase, -⟩
      rw [hfault] at hbase
      cases hbase
  · next base hbase =>
    rw [Run.bind_eq_ok_iff]
    constructor
    · rintro ⟨mismatch, hcheck, haccept⟩
      rw [acceptIf_eq_none_iff, Option.isNone_iff_eq_none] at haccept
      rw [haccept] at hcheck
      exact ⟨base, hbase, hcheck⟩
    · rintro ⟨base', hbase', hfits⟩
      rw [hbase] at hbase'
      cases hbase'
      exact ⟨none, hfits, acceptIf_eq_none_iff.2 rfl⟩

/-! ## Expansions -/

/-- Aggregates are always valid. -/
theorem audited_aggregate (audit : Bool) (shape : Shape) (optional : Bool) (fields : NameMap Ty)
    (token : Option Token) (sources : NameSet) :
    (Ty.node (.aggregate shape optional fields) token sources).audited audit =
      .ok (.node (.aggregate shape optional fields) token sources) := by
  have hvalid : (Ty.node (.aggregate shape optional fields) token sources).violation? = none := by
    cases shape <;> simp [Ty.violation?, Ty.kind, Ty.form, Form.kind, Shape.kind, Kind.isValid, Kind.isLazy,
      Kind.isAggregate]
  unfold Ty.audited
  rw [hvalid]
  cases audit <;> rfl

/-- The aggregate of the kind of an eager aggregate, with some fields. -/
theorem ofKindFields_eq {audit : Bool} {t : Ty} {shape : Shape} {optional : Bool} {old : List (Bytes × Ty)}
    (hform : t.form = .aggregate shape optional old) (fields : NameMap Ty) :
    Ty.ofKindFields audit t.kind fields = .ok (Ty.ofForm (.aggregate shape false fields)) := by
  rw [Ty.kind, hform]
  cases shape <;> exact audited_aggregate _ _ _ _ _ _

theorem toRecord_table (audit : Bool) (optional : Bool) (fields : NameMap Ty) (token : Option Token)
    (sources : NameSet) :
    (Ty.node (.aggregate .table optional fields) token sources).toRecord audit none =
      .ok (.node (.aggregate .record optional fields) token sources) :=
  audited_aggregate audit _ _ _ _ _

/-- To expand a type is to find its expansion. -/
theorem outcome_expand (audit : Bool) (t : Ty) : (t.expand audit).outcome = .ok t.expansion? := by
  rw [Ty.expand, Run.bind_of_ok (Run.outcome_note _)]
  obtain ⟨form, token, sources⟩ := t
  cases form with
  | lazy isTable optional provider =>
    cases provider with
    | none => rfl
    | some p =>
      cases h : p.expand? with
      | none => simp [Ty.provider?, Ty.form, Ty.expansion?, h]
      | some fields =>
        simp only [Ty.provider?, Ty.form, Ty.expansion?, h, Option.map_some]
        rw [Run.bind_of_ok (a := _) (audited_aggregate _ _ _ _ _ _)]
        rfl
  | leaf | enum | choices | aggregate => rfl

/-! ## Rules by the form of the destination -/

theorem check_aggregate (h : Compared dst src) (hs : src.kind ≠ .enum) {shape : Shape} {optional : Bool}
    {fields : List (Bytes × Ty)} (hform : dst.form = .aggregate shape optional fields) :
    c.check dst src = c.checkAggregate dst src := by
  rw [check_eq, if_neg h.void, if_neg h.free, if_neg h.deferred, if_neg (by simp [hs]), hform]

theorem fits_aggregate_iff (h : Compared dst src) (hs : src.kind ≠ .enum) {shape : Shape} {optional : Bool}
    {fields : List (Bytes × Ty)} (hform : dst.form = .aggregate shape optional fields) :
    c.Fits dst src ↔ c.FitsAggregate dst src := by
  rw [Fits, check_aggregate h hs hform, FitsAggregate]

theorem sameLazyShape_eq_true_iff {p q : Option (Provider Ty)} :
    (sameLazyShape p q).outcome = .ok true ↔ Provider.sameShape? p q = true := by
  cases p <;> cases q <;> simp [sameLazyShape, Provider.sameShape?]

/-- A lazy destination takes a lazy source of its own shape, and an eager one that fits its expansion. -/
theorem fits_lazy_iff (h : Compared dst src) (hs : src.kind ≠ .enum) {isTable optional : Bool}
    {provider : Option (Provider Ty)} (hform : dst.form = .lazy isTable optional provider) :
    c.Fits dst src ↔
      (src.isLazy = true ∧ src.kind = dst.kind ∧ Provider.sameShape? provider src.provider? = true) ∨
      (src.isLazy = false ∧ src.kind.sameShape dst.kind = true ∧
        ∃ expanded, dst.expansion? = some expanded ∧ c.FitsFields expanded src) := by
  rw [Fits, check_eq, if_neg h.void, if_neg h.free, if_neg h.deferred, if_neg (by simp [hs]), hform]
  dsimp only
  rw [checkLazy_eq, Ty.provider?, hform]
  cases hlazy : src.isLazy with
  | true =>
    simp only [if_true, true_and, Bool.true_eq_false, false_and, or_false]
    split
    · next hk =>
      rw [Run.bind_eq_ok_iff, ← sameLazyShape_eq_true_iff]
      simp only [acceptIf_eq_none_iff, exists_eq_right, hk, true_and]
    · next hk => simp [hk, reject]
  | false =>
    simp only [Bool.false_eq_true, if_false, false_and, true_and, false_or]
    split
    · next hk =>
      rw [Run.bind_of_ok (outcome_expand _ _)]
      cases dst.expansion? with
      | none => simp [reject]
      | some expanded => simp [hk, FitsFields]
    · next hk => simp [hk, reject]

/-- An enum takes enums of its kind with literals that its own ones accept. -/
theorem fits_enum_iff (h : Compared dst src) {superkind : Kind} {values : Values}
    (hform : dst.form = .enum superkind values) :
    c.Fits dst src ↔
      src.kind = .enum ∧ superkind = src.superkind ∧ c.rules.valuesAccept values src.values = true := by
  have hd : dst.kind = .enum := by rw [Ty.kind, hform, Form.kind]
  rw [Fits, check_eq, if_neg h.void, if_neg h.free, if_neg h.deferred, if_neg (by simp [hd]), hform]
  dsimp only
  rw [acceptIf_eq_none_iff]
  simp only [Bool.and_eq_true, decide_eq_true_eq, and_assoc]

/-- What carries nothing, entities aside, takes sources by their kinds and tokens. -/
theorem fits_plain_iff (h : Compared dst src) (hs : src.kind ≠ .enum) (hd : dst.kind ≠ .dataEntity)
    (hform : (∃ k hk, dst.form = .leaf k hk) ∨ ∃ choice fields, dst.form = .choices choice fields) :
    c.Fits dst src ↔ c.leafAccepts dst src = true := by
  rw [Fits, check_eq, if_neg h.void, if_neg h.free, if_neg h.deferred, if_neg (by simp [hs])]
  rcases hform with ⟨k, hk, hform⟩ | ⟨choice, fields, hform⟩
  · rw [hform]
    split <;> simp_all [acceptIf_eq_none_iff, Ty.kind, Form.kind]
  · rw [hform]
    exact acceptIf_eq_none_iff

/-! ## Fields -/

/-- An eager aggregate takes lazy sources of its shape and sources of its own kind by their fields, and an option set
value for the one column of a selection. -/
theorem fitsAggregate_iff :
    c.FitsAggregate dst src ↔
      (src.isLazy = true ∧ dst.kind.sameShape src.kind = true ∧ c.FitsFields dst src) ∨
      (src.isLazy = false ∧ ((src.kind = .optionSetValue ∧
        (dst.selection?.any fun column => Token.compatible column.token src.token) = true) ∨
        (dst.kind = src.kind ∧ c.FitsFields dst src))) := by
  rw [FitsAggregate, checkAggregate_eq]
  cases hlazy : src.isLazy with
  | true =>
    simp only [if_true, true_and, Bool.true_eq_false, false_and, or_false]
    split
    · next hshape => simp [hshape, FitsFields]
    · next hshape => simp [hshape, reject]
  | false =>
    simp only [Bool.false_eq_true, if_false, false_and, true_and, false_or]
    split
    · next hselection => exact iff_of_true rfl (.inl hselection)
    · next hselection =>
      simp only [hselection, false_or]
      split
      · next hk => simp [hk, FitsFields]
      · next hk => simp [hk, reject]

/-- A field fits if it is `error`, or fits what the source has there, or may be missing. -/
theorem checkField_eq_none_iff {name : Bytes} {expected : Ty} :
    (c.checkField dst src name expected).outcome = .ok none ↔ expected.kind = .error ∨
      (∃ actual, src.field? name = some actual ∧ c.Fits expected actual) ∨
      (src.field? name = none ∧ (c.rules.exact && !dst.optional) = false) := by
  rw [checkField_eq]
  split
  · next herror => simp [herror, accept]
  · next herror =>
    rw [Run.bind_of_ok (Run.outcome_note _)]
    simp only [herror, false_or]
    cases hfound : src.field? name with
    | some actual =>
      dsimp only
      rw [Run.bind_eq_ok_iff]
      simp only [Option.some.injEq, exists_eq_left', reduceCtorEq, false_and, or_false, Fits]
      constructor
      · rintro ⟨mismatch, hcheck, hnone⟩
        cases mismatch with
        | none => exact hcheck
        | some m => cases hnone
      · intro hcheck
        exact ⟨none, hcheck, rfl⟩
    | none =>
      simp only [reduceCtorEq, false_and, exists_false, true_and, false_or]
      split
      · next hexact => simp [hexact]
      · next hexact => simp [hexact, accept]

/-- The fields of a destination are alike those of the source, or each of them fits. -/
theorem fitsFields_iff :
    c.FitsFields dst src ↔ (src.isLazy = false ∧ FieldsAlike dst.fields src.fields) ∨
      ∀ e ∈ dst.fields, e.2.kind = .error ∨ (∃ actual, src.field? e.1 = some actual ∧ c.Fits e.2 actual) ∨
        (src.field? e.1 = none ∧ (c.rules.exact && !dst.optional) = false) := by
  rw [FitsFields, checkFields_eq]
  split
  · next hequal =>
    simp only [Bool.and_eq_true, Bool.not_eq_true', fieldsEqual_iff] at hequal
    exact iff_of_true rfl (.inl hequal)
  · next hequal =>
    simp only [Bool.and_eq_true, Bool.not_eq_true', fieldsEqual_iff] at hequal
    simp only [hequal, false_or]
    rw [Run.firstAlong_eq_none_iff]
    exact forall₂_congr fun e _ => checkField_eq_none_iff

/-- Only the form of a destination counts for its fields. -/
theorem fitsFields_of_form_eq {dst' : Ty} (hform : dst.form = dst'.form) (h : c.FitsFields dst src) :
    c.FitsFields dst' src := by
  have hfields : dst.fields = dst'.fields := by rw [Ty.fields, hform, Ty.fields]
  have hoptional : dst.optional = dst'.optional := by rw [Ty.optional, hform, Ty.optional]
  rw [fitsFields_iff] at h ⊢
  rw [← hfields, ← hoptional]
  exact h

theorem fitsAggregate_of_form_eq {dst' : Ty} (hform : dst.form = dst'.form) (h : c.FitsAggregate dst src) :
    c.FitsAggregate dst' src := by
  have hkind : dst.kind = dst'.kind := by rw [Ty.kind, hform, Ty.kind]
  have hselection : dst.selection? = dst'.selection? := by rw [Ty.selection?, hform, Ty.selection?]
  rw [fitsAggregate_iff] at h ⊢
  rw [← hkind, ← hselection]
  rcases h with ⟨hl, hs, hf⟩ | ⟨hl, hvalue | ⟨hk, hf⟩⟩
  · exact .inl ⟨hl, hs, fitsFields_of_form_eq hform hf⟩
  · exact .inr ⟨hl, .inl hvalue⟩
  · exact .inr ⟨hl, .inr ⟨hk, fitsFields_of_form_eq hform hf⟩⟩

/-! ## Entities -/

/-- The table that an entity stands for is made of what the directory knows of its token. -/
theorem expandEntity_eq_some_iff {audit : Bool} {entities : Option Directory} {t table : Ty}
    (hk : t.kind = .dataEntity) :
    t.expandEntity audit entities = .ok (some table) ↔
      ∃ token look entity, t.token = some token ∧ entities = some look ∧ look token = .ok (some entity) ∧
        table =
          (Ty.node (.aggregate .table false entity.fields) (some token) t.sources).withSources entity.sources := by
  unfold Ty.expandEntity
  rw [hk]
  cases ht : t.token with
  | none => simp
  | some token =>
    cases entities with
    | none => simp
    | some look =>
      cases hlook : look token with
      | error fault => simp [hlook, bind, Except.bind]
      | ok found =>
        cases found with
        | none => simp [hlook, bind, Except.bind, pure, Except.pure]
        | some entity =>
          simp [hlook, bind, Except.bind, audited_aggregate, pure, Except.pure, eq_comm]

/-- The aggregate that an entity is compared as with a source: its table, or the record of it. -/
def entityAs (src : Ty) (token : Token) (entity : Entity) (sources : NameSet) : Ty :=
  .node (.aggregate (if src.isTable then .table else .record) false entity.fields) (some token) sources

/-- An entity takes entities by their tokens, and eager aggregates that fit the table or the record of what the
directory knows of it. -/
theorem fits_entity_iff (h : Compared dst src) (hs : src.kind ≠ .enum) {hk : Kind.dataEntity.isLeaf = true}
    (hform : dst.form = .leaf .dataEntity hk) :
    c.Fits dst src ↔
      (src.kind = .dataEntity ∧ Token.compatible dst.token src.token = true) ∨
      (src.isEager = true ∧ ∃ token look entity sources, dst.token = some token ∧ c.entities = some look ∧
        look token = .ok (some entity) ∧ c.FitsAggregate (entityAs src token entity sources) src) := by
  rw [Fits, check_eq, if_neg h.void, if_neg h.free, if_neg h.deferred, if_neg (by simp [hs]), hform]
  dsimp only
  split
  · next htoken =>
    simp only [Bool.and_eq_true, decide_eq_true_eq] at htoken
    exact iff_of_true rfl (.inl htoken)
  · next htoken =>
    simp only [Bool.and_eq_true, decide_eq_true_eq] at htoken
    simp only [htoken, false_or]
    split
    · next heager =>
      rw [checkEntity_eq, Run.bind_eq_ok_iff]
      simp only [Run.outcome_lift, heager, true_and]
      constructor
      · rintro ⟨found, hfound, hrest⟩
        cases found with
        | none => exact absurd hrest reject_ne_none
        | some table =>
          obtain ⟨token, look, entity, ht, he, hlook, rfl⟩ :=
            (expandEntity_eq_some_iff (by rw [Ty.kind, hform, Form.kind])).1 hfound
          refine ⟨token, look, entity, dst.sources.insertAll entity.sources, ht, he, hlook, ?_⟩
          rw [entityAs]
          dsimp only [Ty.withSources] at hrest
          split at hrest
          · next htable =>
            rw [if_pos htable]
            exact hrest
          · next htable =>
            rw [toRecord_table, Run.bind_of_ok (Run.outcome_lift _)] at hrest
            rw [if_neg htable]
            exact hrest
      · rintro ⟨token, look, entity, sources, ht, he, hlook, hrest⟩
        refine ⟨some _, (expandEntity_eq_some_iff (by rw [Ty.kind, hform, Form.kind])).2
          ⟨token, look, entity, ht, he, hlook, rfl⟩, ?_⟩
        rw [entityAs] at hrest
        dsimp only [Ty.withSources]
        split
        · next htable =>
          rw [if_pos htable] at hrest
          exact fitsAggregate_of_form_eq (by rfl) hrest
        · next htable =>
          rw [if_neg htable] at hrest
          rw [toRecord_table, Run.bind_of_ok (Run.outcome_lift _)]
          exact fitsAggregate_of_form_eq (by rfl) hrest
    · next heager => simp [heager, reject]

/-! ## The rules together -/

/-- A pair without `void` is decided by its kinds, or compared. -/
theorem free_or_deferred_or_compared (hd : dst.kind ≠ .void) (hs : src.kind ≠ .void) :
    (src.kind = .objNull ∨ dst.kind = .error ∨ src.kind = .unknown) ∨
      (src.kind = .deferred ∧ dst.kind ≠ .error) ∨ Compared dst src := by
  by_cases hfree : src.kind = .objNull ∨ dst.kind = .error ∨ src.kind = .unknown
  · exact .inl hfree
  · by_cases hdeferred : src.kind = .deferred
    · exact .inr (.inl ⟨hdeferred, fun he => hfree (.inr (.inl he))⟩)
    · exact .inr (.inr ⟨not_or.2 ⟨hd, hs⟩, hfree, hdeferred⟩)

/-- The rule by which a source fits its destination. -/
inductive FitsRule (c : Checker) (dst src : Ty) : Prop
  | free (hd : dst.kind ≠ .void) (hs : src.kind ≠ .void)
      (h : src.kind = .objNull ∨ dst.kind = .error ∨ src.kind = .unknown)
  | deferred (hd : dst.kind ≠ .void ∧ dst.kind ≠ .error) (hs : src.kind = .deferred) (h : dst.kind ≠ .unknown)
  | restricted (hc : Compared dst src) (hs : src.kind = .enum) (hd : dst.kind ≠ .enum) {base : Ty}
      (hbase : Ty.ofKind src.superkind = .ok base) (h : c.Fits dst base)
  | aggregate (hc : Compared dst src) (hs : src.kind ≠ .enum) {shape : Shape} {optional : Bool}
      {fields : List (Bytes × Ty)} (hform : dst.form = .aggregate shape optional fields) (h : c.FitsAggregate dst src)
  | shape (hc : Compared dst src) (hs : src.kind ≠ .enum) {isTable optional : Bool} {provider : Option (Provider Ty)}
      (hform : dst.form = .lazy isTable optional provider) (hl : src.isLazy = true) (hk : src.kind = dst.kind)
      (h : Provider.sameShape? provider src.provider? = true)
  | expansion (hc : Compared dst src) (hs : src.kind ≠ .enum) {isTable optional : Bool}
      {provider : Option (Provider Ty)} (hform : dst.form = .lazy isTable optional provider) (hl : src.isLazy = false)
      (hk : src.kind.sameShape dst.kind = true) {expanded : Ty} (hx : dst.expansion? = some expanded)
      (h : c.FitsFields expanded src)
  | literals (hc : Compared dst src) {superkind : Kind} {values : Values} (hform : dst.form = .enum superkind values)
      (hs : src.kind = .enum) (hk : superkind = src.superkind) (h : c.rules.valuesAccept values src.values = true)
  | token (hc : Compared dst src) (hs : src.kind ≠ .enum) {hk : Kind.dataEntity.isLeaf = true}
      (hform : dst.form = .leaf .dataEntity hk) (hsrc : src.kind = .dataEntity)
      (h : Token.compatible dst.token src.token = true)
  | entity (hc : Compared dst src) (hs : src.kind ≠ .enum) {hk : Kind.dataEntity.isLeaf = true}
      (hform : dst.form = .leaf .dataEntity hk) (he : src.isEager = true) {token : Token} {look : Directory}
      {entity : Entity} {sources : NameSet} (ht : dst.token = some token) (hl : c.entities = some look)
      (hfound : look token = .ok (some entity)) (h : c.FitsAggregate (entityAs src token entity sources) src)
  | plain (hc : Compared dst src) (hs : src.kind ≠ .enum) (hd : dst.kind ≠ .dataEntity)
      (hform : (∃ k hk, dst.form = .leaf k hk) ∨ ∃ choice fields, dst.form = .choices choice fields)
      (h : c.leafAccepts dst src = true)

theorem FitsRule.fits (h : c.FitsRule dst src) : c.Fits dst src := by
  cases h with
  | free hd hs h => exact fits_of_free hd hs h
  | deferred hd hs h => exact (fits_deferred_iff hd hs).2 h
  | restricted hc hs hd hbase h => exact (fits_restricted_iff hc hs hd).2 ⟨_, hbase, h⟩
  | aggregate hc hs hform h => exact (fits_aggregate_iff hc hs hform).2 h
  | shape hc hs hform hl hk h => exact (fits_lazy_iff hc hs hform).2 (.inl ⟨hl, hk, h⟩)
  | expansion hc hs hform hl hk hx h => exact (fits_lazy_iff hc hs hform).2 (.inr ⟨hl, hk, _, hx, h⟩)
  | literals hc hform hs hk h => exact (fits_enum_iff hc hform).2 ⟨hs, hk, h⟩
  | token hc hs hform hsrc h => exact (fits_entity_iff hc hs hform).2 (.inl ⟨hsrc, h⟩)
  | entity hc hs hform he ht hl hfound h =>
    exact (fits_entity_iff hc hs hform).2 (.inr ⟨he, _, _, _, _, ht, hl, hfound, h⟩)
  | plain hc hs hd hform h => exact (fits_plain_iff hc hs hd hform).2 h

/-- Whatever fits does so by a rule. -/
theorem fitsRule_of_fits (h : c.Fits dst src) : c.FitsRule dst src := by
  obtain ⟨hd, hs⟩ := not_void_of_fits h
  rcases free_or_deferred_or_compared hd hs with hfree | ⟨hdeferred, herror⟩ | hc
  · exact .free hd hs hfree
  · exact .deferred ⟨hd, herror⟩ hdeferred ((fits_deferred_iff ⟨hd, herror⟩ hdeferred).1 h)
  by_cases hr : src.kind = .enum ∧ dst.kind ≠ .enum
  · obtain ⟨base, hbase, hfits⟩ := (fits_restricted_iff hc hr.1 hr.2).1 h
    exact .restricted hc hr.1 hr.2 hbase hfits
  have hplain : (∀ superkind values, dst.form ≠ .enum superkind values) → src.kind ≠ .enum := by
    intro hne henum
    obtain ⟨superkind, values, hform⟩ := Ty.kind_eq_enum_iff.1 (not_not.1 fun hk => hr ⟨henum, hk⟩)
    exact hne superkind values hform
  cases hform : dst.form with
  | leaf k hk =>
    have hs' := hplain (by simp [hform])
    by_cases hentity : k = .dataEntity
    · subst hentity
      rcases (fits_entity_iff hc hs' hform).1 h with
        ⟨hsrc, hsame⟩ | ⟨he, token, look, entity, sources, ht, hl, hfound, h⟩
      · exact .token hc hs' hform hsrc hsame
      · exact .entity hc hs' hform he ht hl hfound h
    · have hd' : dst.kind ≠ .dataEntity := by rwa [Ty.kind_of_form hform]
      have hleaf : (∃ k hk, dst.form = .leaf k hk) ∨ ∃ choice fields, dst.form = .choices choice fields :=
        .inl ⟨k, hk, hform⟩
      exact .plain hc hs' hd' hleaf ((fits_plain_iff hc hs' hd' hleaf).1 h)
  | enum superkind values =>
    obtain ⟨hsrc, hk, haccepts⟩ := (fits_enum_iff hc hform).1 h
    exact .literals hc hform hsrc hk haccepts
  | choices choice fields =>
    have hs' := hplain (by simp [hform])
    have hd' : dst.kind ≠ .dataEntity := by
      rw [Ty.kind_of_form hform, Form.kind]
      cases choice <;> decide
    have hchoices : (∃ k hk, dst.form = .leaf k hk) ∨ ∃ choice fields, dst.form = .choices choice fields :=
      .inr ⟨choice, fields, hform⟩
    exact .plain hc hs' hd' hchoices ((fits_plain_iff hc hs' hd' hchoices).1 h)
  | aggregate shape optional fields =>
    have hs' := hplain (by simp [hform])
    exact .aggregate hc hs' hform ((fits_aggregate_iff hc hs' hform).1 h)
  | lazy isTable optional provider =>
    have hs' := hplain (by simp [hform])
    rcases (fits_lazy_iff hc hs' hform).1 h with ⟨hl, hk, hsame⟩ | ⟨hl, hk, expanded, hx, hfits⟩
    · exact .shape hc hs' hform hl hk hsame
    · exact .expansion hc hs' hform hl hk hx hfits

end Checker

end FormulaTypes
