import FormulaTypes.Proofs.Checker.Acceptance
import FormulaTypes.Proofs.Kind

/-!
# Checks that share their rules

The rules of acceptance are written over a way to go on inside the source (`checkBy`). Two checks that are made of them
are the same run if they go on alike where they do go on: at the base of an enum, along the fields of what is seen in
the place of the destination, and at an entity (`checkBy_congr`, `entityBy_congr`). They may differ in whether they take
short cuts, as long as these decide nothing.
-/

namespace FormulaTypes

namespace Checker

variable {c : Checker} {short short' : Bool} {dst src seen : Ty} {deeper deeper' : Deeper src}
  {enter enter' : Ty → Run (Option Mismatch)}

/-- What a checker may see in the place of a destination. -/
inductive Seen (c : Checker) : Ty → Ty → Prop
  | self (t : Ty) : Seen c t t
  /-- A lazy type is seen as its expansion. -/
  | expansion {t expanded : Ty} (h : t.isLazy = true) (hx : t.expansion? = some expanded) : Seen c t expanded
  /-- An entity is seen as the table that it stands for. -/
  | table {t table : Ty} (h : t.kind = .dataEntity) (hx : t.expandEntity c.audit c.entities = .ok (some table)) :
      Seen c t table
  /-- An entity is seen as the record of that table. -/
  | record {t table record : Ty} (h : t.kind = .dataEntity)
      (hx : t.expandEntity c.audit c.entities = .ok (some table)) (hr : table.toRecord c.audit none = .ok record) :
      Seen c t record

/-- Along the fields of what is seen in the place of a destination two checks are the same run. -/
def SameAlongFields (c : Checker) (short short' : Bool) (dst src : Ty) (deeper deeper' : Deeper src) : Prop :=
  ∀ seen, c.Seen dst seen → src.isAggregate = true →
    c.fieldsBy short seen src deeper = c.fieldsBy short' seen src deeper'

/-- Checks that go on alike in a field are the same there. -/
theorem fieldBy_congr {name : Bytes} {expected : Ty}
    (h : ∀ actual hlt, src.field? name = some actual → deeper expected actual hlt = deeper' expected actual hlt) :
    c.fieldBy dst src deeper name expected = c.fieldBy dst src deeper' name expected := by
  rw [fieldBy, fieldBy]
  refine ite_congr rfl (fun _ => rfl) fun _ => congrArg (_ >>= ·) (funext fun _ => ?_)
  split
  · next actual hfound => rw [h actual _ hfound]
  · rfl

theorem fieldsBy_congr
    (h : ∀ e ∈ dst.fields, ∀ actual hlt, src.field? e.1 = some actual →
      deeper e.2 actual hlt = deeper' e.2 actual hlt) :
    c.fieldsBy short dst src deeper = c.fieldsBy short dst src deeper' := by
  rw [fieldsBy, fieldsBy]
  exact ite_congr rfl (fun _ => rfl) fun _ => Run.firstAlong_congr fun e he => fieldBy_congr (h e he)

/-- The fields of an eager aggregate are compared with those of aggregates only. -/
theorem aggregateBy_congr (hd : dst.isEager = true)
    (h : src.isAggregate = true → c.fieldsBy short dst src deeper = c.fieldsBy short' dst src deeper') :
    c.aggregateBy short dst src deeper = c.aggregateBy short' dst src deeper' := by
  rw [aggregateBy, aggregateBy]
  refine ite_congr rfl (fun hl => ?_) fun _ => ite_congr rfl (fun _ => rfl) fun _ => ite_congr rfl (fun hk => ?_) ?_
  · rw [h (Ty.isAggregate_of_isLazy hl)]
  · refine h ?_
    rw [Ty.isAggregate, ← hk]
    exact (Ty.of_isEager hd).1
  · exact fun _ => rfl

theorem lazyBy_congr (hd : dst.isLazy = true) (h : c.SameAlongFields short short' dst src deeper deeper') :
    c.lazyBy short dst src deeper = c.lazyBy short' dst src deeper' := by
  rw [lazyBy, lazyBy]
  refine ite_congr rfl (fun _ => rfl) fun _ => ite_congr rfl (fun hshape => ?_) fun _ => rfl
  have ha : src.isAggregate = true := by
    rw [Ty.isAggregate]
    rcases Kind.sameShape_cases hshape with ⟨hk, -⟩ | ⟨hk, -⟩ <;> rw [hk] <;> rfl
  refine Run.bind_congr_of_ok fun found hfound => ?_
  rw [outcome_expand, Except.ok.injEq] at hfound
  cases found with
  | none => rfl
  | some expanded => exact h expanded (.expansion hd hfound) ha

theorem entityBy_congr (hd : dst.kind = .dataEntity) (h : c.SameAlongFields short short' dst src deeper deeper') :
    c.entityBy short dst src deeper = c.entityBy short' dst src deeper' := by
  rw [entityBy, entityBy]
  refine Run.bind_congr_of_ok fun found htable => ?_
  cases found with
  | none => rfl
  | some table =>
    obtain ⟨token, look, entity, -, -, -, rfl⟩ := (expandEntity_eq_some_iff hd).1 htable
    dsimp only
    split
    · exact Run.bind_congr_of_ok fun seen hseen => by
        cases hseen
        exact aggregateBy_congr rfl (h _ (.table hd htable))
    · refine Run.bind_congr_of_ok fun record hrecord => ?_
      have hseen : c.Seen dst record := .record hd htable hrecord
      rw [Run.outcome_lift, Ty.withSources, toRecord_table] at hrecord
      cases hrecord
      exact aggregateBy_congr rfl (h _ hseen)

/-- Checks that go on alike are the same run. -/
theorem checkBy_congr
    (hbase : ∀ base hlt, src.kind = .enum → Ty.ofKind src.superkind = .ok base →
      deeper dst base hlt = deeper' dst base hlt)
    (hvalues : ∀ superkind values, dst.form = .enum superkind values →
      c.rules.valuesBy short values src.values = c.rules.valuesBy short' values src.values)
    (hfields : c.SameAlongFields short short' dst src deeper deeper')
    (henter : dst.kind = .dataEntity → src.isEager = true → enter dst = enter' dst) :
    c.checkBy short dst src deeper enter = c.checkBy short' dst src deeper' enter' := by
  rw [checkBy, checkBy]
  refine if_congr Iff.rfl rfl (if_congr Iff.rfl rfl (if_congr Iff.rfl rfl ?_))
  refine dite_congr rfl (fun hr => ?_) fun _ => ?_
  · congr 1
    funext base hplain
    rw [hbase base _ hr.1 hplain]
  cases hform : dst.form with
  | leaf k hk =>
    by_cases hentity : k = .dataEntity
    · subst hentity
      refine if_congr Iff.rfl rfl (ite_congr rfl (fun heager => ?_) fun _ => rfl)
      exact henter (Ty.kind_of_form hform) heager
    · split <;> first | rfl | simp_all
  | enum superkind values =>
    dsimp only
    rw [hvalues superkind values hform]
  | choices choice fields => rfl
  | aggregate shape optional fields =>
    exact aggregateBy_congr (Ty.isEager_iff.2 ⟨_, _, _, hform⟩) (hfields dst (.self dst))
  | lazy isTable optional provider => exact lazyBy_congr (Ty.isLazy_iff.2 ⟨_, _, _, hform⟩) hfields

end Checker

end FormulaTypes
