import FormulaTypes.Proofs.Checker.Body
import FormulaTypes.Proofs.Checker.Ends

/-!
# The first mismatch

A check that does not accept a source says where: along a path of fields, what was expected there, and what the source
has there, if anything. `c.Pinpoints dst src m` says that `m` is such a place, and that at every level of the path all
fields before the one of the path are satisfied. Every mismatch that a check reports is one (`pinpoints_of_check`).

A check stops at the pair itself where the fields of the two are not compared (`Fieldwise`), else at the first field
that is not satisfied. On the way down a destination may be replaced by its expansion or by the aggregate of an entity
(`Seen`), so the path is one through what is seen (`WalksTo`).
-/

namespace FormulaTypes

/-- What is reached from a type along a path of fields. -/
def Ty.walk? : Ty → FieldPath → Option Ty
  | t, [] => some t
  | t, name :: rest => (t.field? name).bind (walk? · rest)

namespace Checker

variable {c : Checker} {dst src seen : Ty} {m : Mismatch}

/-! ## Places of mismatches -/

/-- A path leads from a destination to a type, with what may be seen in the place of each type on the way. -/
inductive WalksTo (c : Checker) : Ty → FieldPath → Ty → Prop
  | here {dst seen : Ty} (hseen : c.Seen dst seen) : WalksTo c dst [] seen
  | field {dst seen next reached : Ty} {name : Bytes} {rest : FieldPath} (hseen : c.Seen dst seen)
      (hnext : seen.field? name = some next) (h : WalksTo c next rest reached) : WalksTo c dst (name :: rest) reached

/-- A field of a destination is satisfied: it takes everything, or the source has it and it is accepted, or it may be
missing. -/
def Satisfied (c : Checker) (dst src : Ty) (e : Bytes × Ty) : Prop :=
  e.2.kind = .error ∨ (∃ actual, src.field? e.1 = some actual ∧ (c.accepts e.2 actual).outcome = .ok true) ∨
    (src.field? e.1 = none ∧ ¬ (c.rules.exact = true ∧ dst.optional = false))

/-- All fields whose names precede a name are satisfied. -/
def SatisfiedBefore (c : Checker) (dst src : Ty) (name : Bytes) : Prop :=
  ∀ e ∈ dst.fields, Bytes.precedes e.1 name = true → c.Satisfied dst src e

/-- The destination is an eager aggregate and the source has its shape, so that their fields are compared. -/
def Fieldwise (dst src : Ty) : Prop :=
  dst.isEager = true ∧ (dst.kind = src.kind ∨ dst.kind.sameShape src.kind = true)

/-- A mismatch is the first one of a source with a destination. -/
inductive Pinpoints (c : Checker) : Ty → Ty → Mismatch → Prop
  /-- The source itself is not accepted, and not for its fields. -/
  | here {dst seen src : Ty} (hseen : c.Seen dst seen) (hapart : ¬ Fieldwise seen src)
      (h : (c.accepts seen src).outcome = .ok false) : Pinpoints c dst src ⟨[], seen, some src⟩
  /-- The source lacks a field that may not be missing. -/
  | missing {dst seen src : Ty} {e : Bytes × Ty} (hseen : c.Seen dst seen) (hasked : e ∈ seen.fields)
      (hbefore : c.SatisfiedBefore seen src e.1) (hnone : src.field? e.1 = none) (hexact : c.rules.exact = true)
      (hoptional : seen.optional = false) : Pinpoints c dst src ⟨[e.1], e.2, none⟩
  /-- A field of the source does not fit. -/
  | inside {dst seen src actual : Ty} {e : Bytes × Ty} {m : Mismatch} (hseen : c.Seen dst seen)
      (hasked : e ∈ seen.fields) (hbefore : c.SatisfiedBefore seen src e.1) (hactual : src.field? e.1 = some actual)
      (h : Pinpoints c e.2 actual m) : Pinpoints c dst src (m.under e.1)

/-- Along the path the source has what the mismatch says. -/
theorem Pinpoints.walk? (h : c.Pinpoints dst src m) : src.walk? m.path = m.actual := by
  induction h with
  | here => rfl
  | missing _ _ _ hnone =>
    rw [Ty.walk?, hnone]
    rfl
  | inside _ _ _ hactual _ ih =>
    rw [Mismatch.under, Ty.walk?, hactual]
    exact ih

/-- What the source has at the end of the path is not accepted there. -/
theorem Pinpoints.refuses (h : c.Pinpoints dst src m) {actual : Ty} (hactual : m.actual = some actual) :
    c.Refuses m.expected actual := by
  induction h with
  | here _ _ h =>
    cases hactual
    exact h
  | missing => cases hactual
  | inside _ _ _ _ _ ih => exact ih hactual

/-- An aggregate is in order if its fields are. -/
theorem inOrder_aggregate {shape : Shape} {optional : Bool} {fields : List (Bytes × Ty)} {token : Option Token}
    {sources : NameSet} (ho : NameMap.Ordered fields) (hparts : ∀ e ∈ fields, e.2.InOrder) :
    (Ty.node (.aggregate shape optional fields) token sources).InOrder := by
  refine .intro ho fun part hpart => ?_
  obtain ⟨e, he, rfl⟩ := List.mem_map.1 hpart
  exact hparts e he

/-- What is seen in the place of a type in order is in order. -/
theorem Seen.inOrder (hd : dst.InOrder) (h : c.Seen dst seen) : seen.InOrder := by
  cases h with
  | self => exact hd
  | expansion _ hx => exact inOrder_expansion hd hx
  | table hk hx =>
    obtain ⟨token, look, entity, -, -, -, rfl⟩ := (expandEntity_eq_some_iff hk).1 hx
    exact inOrder_aggregate entity.ordered entity.inOrder
  | record hk hx hr =>
    obtain ⟨token, look, entity, -, -, -, rfl⟩ := (expandEntity_eq_some_iff hk).1 hx
    rw [Ty.withSources, toRecord_table] at hr
    cases hr
    exact inOrder_aggregate entity.ordered entity.inOrder

/-- The fields of a type in order are found by their names. -/
theorem field?_of_mem_fields {t : Ty} {e : Bytes × Ty} (ht : t.InOrder) (he : e ∈ t.fields) :
    t.field? e.1 = some e.2 := by
  have hordered := Ty.ordered_fields_of_form (Ty.Everywhere.here ht)
  have hlazy : t.isLazy = false := by
    obtain ⟨form, token, sources⟩ := t
    cases form with
    | lazy => cases he
    | leaf => cases he
    | enum => cases he
    | choices choice => cases choice <;> rfl
    | aggregate shape => cases shape <;> rfl
  rw [Ty.field?_of_not_lazy hlazy]
  exact NameMap.find?_of_mem hordered he

/-- Along the path the destination has what was expected. -/
theorem Pinpoints.walksTo (hd : dst.InOrder) (h : c.Pinpoints dst src m) : c.WalksTo dst m.path m.expected := by
  induction h with
  | here hseen => exact .here hseen
  | missing hseen hasked =>
    exact .field hseen (field?_of_mem_fields (hseen.inOrder hd) hasked) (.here (.self _))
  | inside hseen hasked _ _ _ ih =>
    have hin := hseen.inOrder hd
    exact .field hseen (field?_of_mem_fields hin hasked) (ih (hin.part (Ty.mem_parts_of_mem_fields hasked)))

/-- Behind a path, a field is expected that the source does not have and may not miss. -/
structure Lacks (c : Checker) (dst src : Ty) (before : FieldPath) (name : Bytes) (expected : Ty) : Prop where
  exact : c.rules.exact = true
  asked : ∃ around, c.WalksTo dst before around ∧ around.optional = false ∧ around.field? name = some expected
  lacked : ∃ around, src.walk? before = some around ∧ around.field? name = none

/-- Where the source has nothing, it lacks the last field of the path and may not. -/
theorem Pinpoints.lacks (hd : dst.InOrder) (h : c.Pinpoints dst src m) (hnone : m.actual = none) :
    ∃ before name, m.path = before ++ [name] ∧ c.Lacks dst src before name m.expected := by
  induction h with
  | here => cases hnone
  | @missing dst seen src e hseen hasked _ hlacked hexact hoptional =>
    have hfield := field?_of_mem_fields (hseen.inOrder hd) hasked
    exact ⟨[], e.1, rfl, hexact, ⟨seen, .here hseen, hoptional, hfield⟩, src, rfl, hlacked⟩
  | @inside dst seen src actual e m hseen hasked _ hactual _ ih =>
    have hin := hseen.inOrder hd
    obtain ⟨before, name, hpath, hexact, ⟨around, hwalk, hasked'⟩, around', hwalk', hlacked⟩ :=
      ih (hin.part (Ty.mem_parts_of_mem_fields hasked)) hnone
    refine ⟨e.1 :: before, name, congrArg (e.1 :: ·) hpath, hexact,
      ⟨around, .field hseen (field?_of_mem_fields hin hasked) hwalk, hasked'⟩, around', ?_, hlacked⟩
    rw [Ty.walk?, hactual]
    exact hwalk'

/-! ## Where checks stop -/

theorem eq_of_acceptIf {test : Bool} (h : (acceptIf test dst src).outcome = .ok (some m)) :
    m = ⟨[], dst, some src⟩ := by
  cases test <;> cases h
  rfl

/-- A field does not fit if what the source has there does not, or if it may not be missing. -/
theorem checkField_eq_some_iff {name : Bytes} {expected : Ty} :
    (c.checkField dst src name expected).outcome = .ok (some m) ↔ expected.kind ≠ .error ∧
      ((∃ actual m', src.field? name = some actual ∧ (c.check expected actual).outcome = .ok (some m') ∧
          m = m'.under name) ∨
        (src.field? name = none ∧ c.rules.exact = true ∧ dst.optional = false ∧ m = ⟨[name], expected, none⟩)) := by
  rw [checkField_eq]
  split
  · next herror => simp [herror, accept]
  · next herror =>
    rw [Run.bind_of_ok (Run.outcome_note _)]
    cases hfound : src.field? name with
    | some actual =>
      dsimp only
      rw [Run.bind_eq_ok_iff]
      simp only [herror, Option.some.injEq, ne_eq, not_false_eq_true, true_and, reduceCtorEq, false_and, or_false]
      constructor
      · rintro ⟨_ | m', hcheck, hsome⟩
        · cases hsome
        · cases hsome
          exact ⟨actual, m', rfl, hcheck, rfl⟩
      · rintro ⟨_, m', rfl, hcheck, rfl⟩
        exact ⟨some m', hcheck, rfl⟩
    | none =>
      dsimp only
      split
      · next hexact =>
        simp only [Bool.and_eq_true, Bool.not_eq_true'] at hexact
        simp [herror, hexact, eq_comm]
      · next hexact =>
        simp only [Bool.and_eq_true, Bool.not_eq_true', not_and] at hexact
        simp +contextual [accept, hexact]

/-- A check along fields stops at the first field that is not satisfied. -/
theorem exists_of_checkFields (ho : NameMap.Ordered dst.fields)
    (h : (c.checkFields dst src).outcome = .ok (some m)) :
    ∃ e ∈ dst.fields, c.SatisfiedBefore dst src e.1 ∧ (c.checkField dst src e.1 e.2).outcome = .ok (some m) := by
  rw [checkFields_eq] at h
  split at h
  · cases h
  obtain ⟨before, e, after, hfields, hbefore, he⟩ := Run.firstAlong_eq_some_iff.1 h
  refine ⟨e, by rw [hfields]; simp, ?_, he⟩
  intro d hd hp
  rw [hfields] at ho hd
  rw [Satisfied]
  simpa [accepts_eq_true_iff] using checkField_eq_none_iff.1 (hbefore d (NameMap.mem_of_precedes ho hd hp))

/-- A check of aggregates stops at the aggregates themselves or at their fields. -/
theorem checkAggregate_cases (h : (c.checkAggregate dst src).outcome = .ok (some m)) :
    m = ⟨[], dst, some src⟩ ∨ (c.checkFields dst src).outcome = .ok (some m) := by
  rw [checkAggregate_eq] at h
  split at h
  · split at h
    · exact .inr h
    · cases h
      exact .inl rfl
  split at h
  · cases h
  split at h
  · exact .inr h
  · cases h
    exact .inl rfl

/-- Fields are compared wherever they can be. -/
theorem checkAggregate_of_fieldwise (h : Fieldwise dst src) : c.checkAggregate dst src = c.checkFields dst src := by
  obtain ⟨hd, hkind⟩ := h
  obtain ⟨hda, hdl⟩ := Ty.of_isEager hd
  rw [checkAggregate_eq]
  rcases hkind with hkind | hshape
  · have hs : src.isLazy = false := by rw [Ty.isLazy, ← hkind, ← Ty.isLazy, hdl]
    have hvalue : src.kind ≠ .optionSetValue := by
      intro hv
      rw [Ty.isAggregate, hkind, hv] at hda
      cases hda
    rw [if_neg (by simp [hs]), if_neg (by simp [hvalue]), if_pos hkind]
  · have hs : src.isLazy = true := by
      rcases Kind.sameShape_cases hshape with ⟨-, hk⟩ | ⟨-, hk⟩ <;> rw [Ty.isLazy, hk] <;> rfl
    rw [if_pos hs, if_pos hshape]

theorem check_of_fieldwise (h : Fieldwise dst src) : c.check dst src = c.checkFields dst src := by
  obtain ⟨shape, optional, fields, hform⟩ := Ty.isEager_iff.1 h.1
  have hda := (Ty.of_isEager h.1).1
  have hsa : src.isAggregate = true := by
    rcases h.2 with hkind | hshape
    · rw [Ty.isAggregate, ← hkind]
      exact hda
    · rcases Kind.sameShape_cases hshape with ⟨-, hk⟩ | ⟨-, hk⟩ <;> rw [Ty.isAggregate, hk] <;> rfl
  obtain ⟨hcompared, henum⟩ := compared_of_isAggregate hda hsa
  rw [check_aggregate hcompared henum hform, checkAggregate_of_fieldwise h]

/-- A mismatch is a refusal. -/
theorem refuses_of_check (h : (c.check dst src).outcome = .ok (some m)) : c.Refuses dst src := by
  rw [Refuses, accepts, Run.bind_of_ok h]
  rfl

/-- A mismatch is at what is seen in the place of the destination, or comes from its fields. -/
def StopsAt (c : Checker) (dst src : Ty) (m : Mismatch) : Prop :=
  ∃ seen, c.Seen dst seen ∧
    ((m = ⟨[], seen, some src⟩ ∧ ¬ Fieldwise seen src ∧ c.Refuses seen src) ∨
      (c.checkFields seen src).outcome = .ok (some m))

/-- A check of eager aggregates stops where it does once the destination is seen as an aggregate. -/
theorem stopsAt_of_checkAggregate (hseen : c.Seen dst seen) (hd : seen.isEager = true) (hs : src.isEager = true)
    (h : (c.checkAggregate seen src).outcome = .ok (some m)) : c.StopsAt dst src m := by
  refine ⟨seen, hseen, ?_⟩
  by_cases hfieldwise : Fieldwise seen src
  · rw [checkAggregate_of_fieldwise hfieldwise] at h
    exact .inr h
  rcases checkAggregate_cases h with hm | hfields
  · obtain ⟨_, _, _, hform⟩ := Ty.isEager_iff.1 hd
    obtain ⟨hcompared, henum⟩ := compared_of_isAggregate (Ty.of_isEager hd).1 (Ty.of_isEager hs).1
    rw [← check_aggregate hcompared henum hform] at h
    exact .inl ⟨hm, hfieldwise, refuses_of_check h⟩
  · exact .inr hfields

/-- A check with a lazy destination stops at it or at the fields of its expansion. -/
theorem checkLazy_cases (hd : dst.isLazy = true) (h : (c.checkLazy dst src).outcome = .ok (some m)) :
    m = ⟨[], dst, some src⟩ ∨ ∃ seen, c.Seen dst seen ∧ (c.checkFields seen src).outcome = .ok (some m) := by
  rw [checkLazy_eq] at h
  split at h
  · split at h
    · obtain ⟨_, -, h⟩ := Run.bind_eq_ok_iff.1 h
      exact .inl (eq_of_acceptIf h)
    · cases h
      exact .inl rfl
  split at h
  · rw [Run.bind_of_ok (outcome_expand _ _)] at h
    split at h
    · next expanded hx => exact .inr ⟨expanded, .expansion hd hx, h⟩
    · cases h
      exact .inl rfl
  · cases h
    exact .inl rfl

/-- A check with an entity stops at it or where that with its aggregate does. -/
theorem checkEntity_cases (hd : dst.kind = .dataEntity) (hs : src.isEager = true)
    (h : (c.checkEntity dst src).outcome = .ok (some m)) : m = ⟨[], dst, some src⟩ ∨ c.StopsAt dst src m := by
  rw [checkEntity_eq] at h
  obtain ⟨_ | table, htable, h⟩ := Run.bind_eq_ok_iff.1 h
  · cases h
    exact .inl rfl
  · obtain ⟨token, look, entity, -, -, -, rfl⟩ := (expandEntity_eq_some_iff hd).1 htable
    dsimp only [Ty.withSources] at h
    split at h
    · exact .inr (stopsAt_of_checkAggregate (.table hd htable) rfl hs h)
    · rw [toRecord_table, Run.bind_of_ok (Run.outcome_lift _)] at h
      exact .inr (stopsAt_of_checkAggregate (.record hd htable (toRecord_table _ _ _ _ _)) rfl hs h)

/-- Every check that finds a mismatch stops at the destination or at what is seen in its place. -/
theorem stopsAt_of_check (h : (c.check dst src).outcome = .ok (some m)) : c.StopsAt dst src m := by
  by_cases hfieldwise : Fieldwise dst src
  · rw [check_of_fieldwise hfieldwise] at h
    exact ⟨dst, .self dst, .inr h⟩
  have hself : m = ⟨[], dst, some src⟩ → c.StopsAt dst src m :=
    fun hm => ⟨dst, .self dst, .inl ⟨hm, hfieldwise, refuses_of_check h⟩⟩
  rw [check_eq] at h
  split at h
  · cases h
    exact hself rfl
  split at h
  · cases h
  split at h
  · exact hself (eq_of_acceptIf h)
  split at h
  -- what an enum restricts is checked for its answer only, so the mismatch is with the enum
  · split at h
    · cases h
    · obtain ⟨_, -, h⟩ := Run.bind_eq_ok_iff.1 h
      exact hself (eq_of_acceptIf h)
  split at h
  · rcases checkAggregate_cases h with hm | hfields
    · exact hself hm
    · exact ⟨dst, .self dst, .inr hfields⟩
  · next hform =>
    rcases checkLazy_cases (Ty.isLazy_iff.2 ⟨_, _, _, hform⟩) h with hm | ⟨seen, hseen, hfields⟩
    · exact hself hm
    · exact ⟨seen, hseen, .inr hfields⟩
  · exact hself (eq_of_acceptIf h)
  · next hform =>
    split at h
    · cases h
    split at h
    · next heager => exact (checkEntity_cases (Ty.kind_of_form hform) heager h).elim hself id
    · cases h
      exact hself rfl
  · exact hself (eq_of_acceptIf h)
  · exact hself (eq_of_acceptIf h)

/-! ## Reports -/

/-- A check reports the first mismatch. -/
theorem pinpoints_of_check (hd : dst.InOrder)
    (h : (c.check dst src).outcome = .ok (some m)) : c.Pinpoints dst src m := by
  induction src using Ty.weightInduction generalizing dst m with
  | step src ih =>
    obtain ⟨seen, hseen, ⟨rfl, hapart, hrefuses⟩ | hfields⟩ := stopsAt_of_check h
    · exact .here hseen hapart hrefuses
    have hin := hseen.inOrder hd
    obtain ⟨e, hasked, hbefore, he⟩ :=
      exists_of_checkFields (Ty.ordered_fields_of_form (Ty.Everywhere.here hin)) hfields
    obtain ⟨-, ⟨actual, m', hactual, hcheck, rfl⟩ | ⟨hnone, hexact, hoptional, rfl⟩⟩ := checkField_eq_some_iff.1 he
    · have hpart := Ty.Everywhere.part hin (Ty.mem_parts_of_mem_fields hasked)
      exact .inside hseen hasked hbefore hactual (ih actual (Ty.weight_lt_of_field? hactual) hpart hcheck)
    · exact .missing hseen hasked hbefore hnone hexact hoptional

end Checker

end FormulaTypes
