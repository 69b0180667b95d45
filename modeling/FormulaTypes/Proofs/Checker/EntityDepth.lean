import FormulaTypes.Proofs.Checker.Body
import FormulaTypes.Proofs.Checker.Ends

/-!
# How deep acceptance goes

An entity is replaced by a fresh aggregate, which may have the same entity in a field again, so that destinations grow
without a bound. The depth of a check comes from its source alone: an entity is expanded only for an aggregate, and
what follows is about the fields of that aggregate.

`c.checkWithin giveUp calls expansions` is the check with two budgets, for the checks inside each other and for the
entities that are expanded along one path of them; it gives up if it runs out of one. It is the same run as the check if
the budgets are what the nesting of the source asks for (`checkWithin_eq_check`), whatever giving up would be.
-/

namespace FormulaTypes

namespace Ty

/-! ## Nesting -/

/-- How deep aggregates are nested in a type, the fields of lazy ones counting with what they resolve to. An enum counts
as the plain type that it stands for, which is no aggregate if the enum is valid. -/
def nesting (t : Ty) : Nat :=
  if t.isAggregate then 1 + (t.parts.attach.map fun part => nesting part.1).max?.getD 0
  else if t.superkind.isAggregate then 1
  else 0
termination_by sizeOf t
decreasing_by exact sizeOf_lt_of_mem_parts part.2

variable {t base : Ty}

theorem nesting_aggregate (ha : t.isAggregate = true) : t.nesting = 1 + (t.parts.map nesting).max?.getD 0 := by
  rw [nesting, List.attach_map_val (f := nesting), if_pos ha]

theorem nesting_plain (ha : t.isAggregate = false) : t.nesting = if t.superkind.isAggregate then 1 else 0 := by
  rw [nesting, if_neg (by simp [ha])]

theorem nesting_pos (ha : t.isAggregate = true) : 0 < t.nesting := by
  rw [nesting_aggregate ha]
  omega

/-- The fields of an aggregate are nested less deep. -/
theorem nesting_lt_of_field? {name : Bytes} {part : Ty} (ha : t.isAggregate = true) (h : t.field? name = some part) :
    part.nesting < t.nesting := by
  have hmem := List.mem_map_of_mem (f := nesting) (mem_parts_of_field? h)
  have hle := List.le_max?_getD_of_mem (k := 0) hmem
  rw [nesting_aggregate ha]
  omega

/-- A plain type has neither parts nor literals. -/
theorem plain_of_ofKind {k : Kind} (h : ofKind k = .ok t) : t.parts = [] ∧ t.superkind = .invalid := by
  cases k <;> simp [ofKind, plainForm?, Kind.isLeaf, Kind.isValid] at h <;> subst h <;> exact ⟨rfl, rfl⟩

/-- The plain type of the literals of an enum is nested as the enum is. -/
theorem nesting_base (he : t.kind = .enum) (h : ofKind t.superkind = .ok base) : base.nesting = t.nesting := by
  obtain ⟨hparts, hsuperkind⟩ := plain_of_ofKind h
  have hkind : base.isAggregate = t.superkind.isAggregate := by rw [isAggregate, (Checker.kind_ofKind h).1]
  have ha : t.isAggregate = false := by rw [isAggregate, he]; rfl
  rw [nesting_plain ha, ← hkind]
  cases hb : base.isAggregate with
  | true => rw [nesting_aggregate hb, hparts]; rfl
  | false => rw [nesting_plain hb, hsuperkind]; rfl

/-- Valid types that are no aggregates have no nesting. -/
theorem nesting_eq_zero (h : t.isValid = true) (ha : t.isAggregate = false) : t.nesting = 0 := by
  have hplain : t.superkind.isAggregate = false := by
    by_cases he : t.kind = .enum
    · exact (Kind.of_isPrimitive (superkind_isPrimitive h he)).2.1
    · rw [superkind]
      split
      · next hform => exact absurd (kind_eq_enum_iff.2 ⟨_, _, hform⟩) he
      · rfl
  rw [nesting_plain ha, hplain]
  rfl

end Ty

namespace Checker

/-! ## The check within budgets -/

/-- The first mismatch of a source with its destination, found by at most so many checks inside each other and with at
most so many entities expanded along a path of them. -/
def checkWithin (c : Checker) (giveUp : Run (Option Mismatch)) : Nat → Nat → Ty → Ty → Run (Option Mismatch)
  | 0, _, _, _ => giveUp
  | calls + 1, expansions, dst, src =>
    c.checkBy true dst src (fun expected actual _ => c.checkWithin giveUp calls expansions expected actual)
      fun entity =>
        match expansions with
        | 0 => giveUp
        | expansions + 1 =>
          c.entityBy true entity src fun expected actual _ => c.checkWithin giveUp calls expansions expected actual

/-- Whether a value of the source type may be used where the destination type is expected, found within budgets. -/
def acceptsWithin (c : Checker) (giveUp : Run (Option Mismatch)) (calls expansions : Nat) (dst src : Ty) :
    Run Bool := do
  let mismatch ← c.checkWithin giveUp calls expansions dst src
  return mismatch.isNone

variable {c : Checker} {giveUp : Run (Option Mismatch)} {calls expansions : Nat} {dst src : Ty}

/-! ## Budgets that are enough -/

/-- In the fields of a source the checks within budgets are the checks. -/
def GoesOn (c : Checker) (giveUp : Run (Option Mismatch)) (calls expansions : Nat) (src : Ty) : Prop :=
  src.isAggregate = true → ∀ name actual, src.field? name = some actual → ∀ expected,
    c.checkWithin giveUp calls expansions expected actual = c.check expected actual

theorem GoesOn.sameAlongFields (h : c.GoesOn giveUp calls expansions src) :
    c.SameAlongFields true true dst src (fun expected actual _ => c.checkWithin giveUp calls expansions expected actual)
      (fun expected actual _ => c.check expected actual) :=
  fun _ _ ha => fieldsBy_congr fun e _ actual _ hfound => h ha e.1 actual hfound e.2

/-- One check within budgets is the check, if those that it calls are. -/
theorem checkWithin_succ
    (hbase : src.kind = .enum → ∀ base, Ty.ofKind src.superkind = .ok base →
      c.checkWithin giveUp calls expansions dst base = c.check dst base)
    (hfields : ∀ expansions, src.nesting ≤ expansions + 1 → c.GoesOn giveUp calls expansions src)
    (h : src.nesting ≤ expansions) : c.checkWithin giveUp (calls + 1) expansions dst src = c.check dst src := by
  rw [checkWithin.eq_def, check]
  refine checkBy_congr (fun base _ he hplain => hbase he base hplain) (fun _ _ _ => rfl)
    (hfields expansions (Nat.le_succ_of_le h)).sameAlongFields fun hentity heager => ?_
  -- The source is an aggregate, so that one expansion is left, and its fields are nested less deep.
  have hpos := Ty.nesting_pos (Ty.of_isEager heager).1
  obtain ⟨expansions, rfl⟩ : ∃ n, expansions = n + 1 := ⟨expansions - 1, by omega⟩
  exact entityBy_congr hentity (hfields expansions h).sameAlongFields

/-- A check of a plain type within budgets calls no other one. -/
theorem checkWithin_plain {k : Kind} (hk : Ty.ofKind k = .ok src) (h : src.nesting ≤ expansions) :
    c.checkWithin giveUp (calls + 1) expansions dst src = c.check dst src := by
  obtain ⟨hkind, hne⟩ := kind_ofKind hk
  refine checkWithin_succ (fun he => absurd (hkind.symm.trans he) hne) (fun _ _ _ name actual hactual => ?_) h
  have hmem := Ty.mem_parts_of_field? hactual
  rw [(Ty.plain_of_ofKind hk).1] at hmem
  cases hmem

/-- **Budgets by the nesting of the source are enough**: then the check within them is the check. -/
theorem checkWithin_eq_check (hcalls : src.nesting + 2 ≤ calls) (h : src.nesting ≤ expansions) :
    c.checkWithin giveUp calls expansions dst src = c.check dst src := by
  induction calls generalizing expansions dst src with
  | zero => omega
  | succ calls ih =>
    refine checkWithin_succ (fun he base hplain => ?_) (fun expansions hle ha name actual hactual expected => ?_) h
    · obtain ⟨calls, rfl⟩ : ∃ n, calls = n + 1 := ⟨calls - 1, by omega⟩
      exact checkWithin_plain hplain (by rwa [Ty.nesting_base he hplain])
    · have hlt := Ty.nesting_lt_of_field? ha hactual
      exact ih (by omega) (by omega)

/-- **Acceptance is as deep as its source**: whatever the directory says of entities, and however they refer to each
other, along every path acceptance makes at most two checks more than the source has aggregates nested in each other and
expands at most as many entities as that. For valid sources that are no aggregates it expands none. If looking up
entities gives answers, it ends. -/
theorem accepts_within_nesting (c : Checker) (giveUp : Run (Option Mismatch)) (dst src : Ty) :
    c.acceptsWithin giveUp (src.nesting + 2) src.nesting dst src = c.accepts dst src ∧
      (src.isValid = true → src.isAggregate = false → c.acceptsWithin giveUp 2 0 dst src = c.accepts dst src) ∧
      (c.Answers → dst.Provided → src.Sound → (c.accepts dst src).Ends) := by
  have hwithin : c.acceptsWithin giveUp (src.nesting + 2) src.nesting dst src = c.accepts dst src := by
    rw [acceptsWithin, accepts, checkWithin_eq_check (Nat.le_refl _) (Nat.le_refl _)]
  refine ⟨hwithin, fun hvalid ha => ?_, fun hc hdst hsrc => ?_⟩
  · rwa [Ty.nesting_eq_zero hvalid ha] at hwithin
  · exact Run.ends_bind (ends_check hc hdst hsrc) fun _ _ => Run.ends_pure _

/-- An entity. -/
def linkedEntity : Ty := .node (Ty.bareForm .dataEntity) (some ⟨Bytes.ofString "t", none⟩) ∅

/-- What is known of the entity: it has itself in a field. -/
def linkedFields : Entity where
  fields := [(Bytes.ofString "A", linkedEntity)]
  sources := []
  ordered := by decide
  inOrder := by decide +kernel

/-- A checker that knows the entity as one that has itself in a field. -/
def linkedChecker : Checker := ⟨⟨false, true, false⟩, some fun _ => .ok (some linkedFields), true⟩

/-- Three records inside each other. -/
def nestedRecords : Ty :=
  .ofForm (.aggregate .record false
    [(Bytes.ofString "A", .ofForm (.aggregate .record false
      [(Bytes.ofString "A", .ofForm (.aggregate .record false []))]))])

/-- An entity that has itself in a field takes records inside each other, and is expanded once for each. -/
theorem accepts_within_nesting_linked :
    linkedChecker.Answers ∧ linkedEntity.Provided ∧ nestedRecords.Sound ∧ nestedRecords.nesting = 3 ∧
      (linkedChecker.accepts linkedEntity nestedRecords).outcome = .ok true ∧
      (linkedChecker.accepts linkedEntity nestedRecords).Ends ∧
      (linkedChecker.acceptsWithin (Run.fail .badLiteral) 5 2 linkedEntity nestedRecords).outcome =
        .error .badLiteral := by
  have hd : linkedEntity.Provided := Ty.Sound.provided (by decide +kernel)
  have hc : linkedChecker.Answers := answers_of_same rfl (List.forall_mem_singleton.2 hd)
  have hs : nestedRecords.Sound := by decide +kernel
  have hn : nestedRecords.nesting = 3 := by decide +kernel
  obtain ⟨hwithin, -, hends⟩ := accepts_within_nesting linkedChecker (Run.fail .badLiteral) linkedEntity nestedRecords
  refine ⟨hc, hd, hs, hn, ?_, hends hc hd hs, rfl⟩
  rw [← hwithin, hn]
  rfl

end Checker

end FormulaTypes
