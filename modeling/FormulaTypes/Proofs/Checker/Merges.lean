import FormulaTypes.Checker.Union
import FormulaTypes.Proofs.Checker.Joins

/-!
# How two types are merged

`c.Merges a b m` has one rule for each way in which a union comes about, with `c.MergesLeaves a b m` for fields that
are not both eager aggregates. What the rules give is what the union is (`union_of_merges`), sound types are always
merged (`Covers.exists_merges`) if look-ups end, and every union that comes out is from the rules
(`merges_of_union`), so that a property of all unions is one case a rule.
-/

namespace FormulaTypes

/-- The fields of two types together: those of `b`, as merged, win over those of `a`. -/
def Ty.mergedFields (a b : Ty) (merge : Bytes × Ty → Merge) : NameMap Ty :=
  NameMap.insertAll a.fields (b.fields.map fun e => (e.1, (merge e).type))

theorem Ty.ordered_mergedFields {a : Ty} (ha : NameMap.Ordered a.fields) (b : Ty) (merge : Bytes × Ty → Merge) :
    NameMap.Ordered (a.mergedFields b merge) :=
  (NameMap.All.insertAll (P := fun _ => True) ⟨ha, fun _ _ => trivial⟩ fun _ _ => trivial).ordered

/-- What is found under a name in the fields of two types together. -/
theorem Ty.find?_mergedFields {a b : Ty} (hb : NameMap.Ordered b.fields) (merge : Bytes × Ty → Merge) (name : Bytes) :
    NameMap.find? (a.mergedFields b merge) name =
      ((NameMap.find? b.fields name).map fun t => (merge (name, t)).type).or (NameMap.find? a.fields name) := by
  have hordered : NameMap.Ordered (b.fields.map fun e => (e.1, (merge e).type)) :=
    NameMap.ordered_of_names_eq hb (by simp [NameMap.names])
  rw [mergedFields, NameMap.find?_insertAll hordered, NameMap.find?_map]

namespace Checker

variable {c : Checker} {a b : Ty} {m : Merge}

/-- How a checker merges two fields that are not both eager aggregates. -/
inductive MergesLeaves (c : Checker) (a b : Ty) : Merge → Prop
  /-- Nothing gives way. -/
  | nullLeft (ha : a.kind = .objNull) : MergesLeaves c a b ⟨b, true⟩
  | nullRight (ha : a.kind ≠ .objNull) (hb : b.kind = .objNull) : MergesLeaves c a b ⟨a, true⟩
  /-- An entity stands for its expansion. -/
  | entityRight (ha : a.kind ≠ .objNull) (hb : b.kind ≠ .objNull) (h : a.isExpansionOf b = true) :
      MergesLeaves c a b ⟨b, true⟩
  | entityLeft (ha : a.kind ≠ .objNull) (hb : b.kind ≠ .objNull) (h : b.isExpansionOf a = true) :
      MergesLeaves c a b ⟨a, true⟩
  /-- All else meets at the supertype. -/
  | joined (ha : a.kind ≠ .objNull) (hb : b.kind ≠ .objNull) (hab : a.isExpansionOf b = false)
      (hba : b.isExpansionOf a = false) {s : Ty} (hs : c.Joins a b s) :
      MergesLeaves c a b ⟨s, s.kind ≠ .error || a.kind = .error || b.kind = .error⟩

/-- Neither type gives way as nothing does, and they are not both eager aggregates, so that they are merged by what
accepts what. -/
structure Unmerged (a b : Ty) : Prop where
  left : ¬ (a.kind = .objNull ∧ b.kind ≠ .void)
  right : ¬ (b.kind = .objNull ∧ a.kind ≠ .void)
  uneager : ¬ (a.isEager && b.isEager) = true

/-- How a checker merges two types. -/
inductive Merges (c : Checker) : Ty → Ty → Merge → Prop
  /-- Nothing gives way to all but `void`. -/
  | nullLeft {a b : Ty} (ha : a.kind = .objNull) (hb : b.kind ≠ .void) : Merges c a b ⟨b.withSourcesOf a, true⟩
  | nullRight {a b : Ty} (ha : a.kind ≠ .objNull) (hv : a.kind ≠ .void) (hb : b.kind = .objNull) :
      Merges c a b ⟨a.withSourcesOf b, true⟩
  /-- Eager aggregates of different kinds are in conflict. -/
  | apart {a b : Ty} (ha : a.isEager = true) (hb : b.isEager = true) (hk : a.kind ≠ b.kind) :
      Merges c a b ⟨.error, false⟩
  /-- Eager aggregates of one kind keep all fields. -/
  | fields {a b : Ty} (hb : b.isEager = true) {shape : Shape} {optional : Bool} {old : List (Bytes × Ty)}
      (ha : a.form = .aggregate shape optional old) (hk : a.kind = b.kind) (merge : Bytes × Ty → Merge)
      (hnew : ∀ e ∈ b.fields, NameMap.find? a.fields e.1 = none → merge e = ⟨e.2, true⟩)
      (hleaves : ∀ e ∈ b.fields, ∀ f, NameMap.find? a.fields e.1 = some f → (f.isEager && e.2.isEager) = false →
        MergesLeaves c f e.2 (merge e))
      (hnested : ∀ e ∈ b.fields, ∀ f, NameMap.find? a.fields e.1 = some f → (f.isEager && e.2.isEager) = true →
        Merges c f e.2 (merge e)) :
      Merges c a b ⟨.ofForm₂ (.aggregate shape (a.optional || b.optional) (a.mergedFields b merge))
        (Token.common a.token b.token) a b, b.fields.all fun e => (merge e).clean⟩
  /-- Of two types that accept each other one stands for both. -/
  | either {a b s : Ty} (h : Unmerged a b) (hab : c.exactly.Fits a b) (hba : c.exactly.Fits b a)
      (hs : (mutualBound a b).outcome = .ok s) : Merges c a b ⟨s, true⟩
  | left {a b : Ty} (h : Unmerged a b) (hab : c.exactly.Fits a b) (hba : c.exactly.Refuses b a) :
      Merges c a b ⟨a.withSourcesOf b, true⟩
  | right {a b : Ty} (h : Unmerged a b) (hab : c.exactly.Refuses a b) (hba : c.exactly.Fits b a) :
      Merges c a b ⟨b.withSourcesOf a, true⟩
  /-- Lazy types are merged as their expansions. -/
  | expanded {a b ea eb : Ty} {m : Merge} (h : Unmerged a b) (hab : c.exactly.Refuses a b)
      (hba : c.exactly.Refuses b a) (hl : (a.isLazy || b.isLazy) = true) (hx : bothExpand a b = true)
      (ha : a.expansion? = some ea) (hb : b.expansion? = some eb) (hp : a.hasProvider = true ∨ b.hasProvider = true)
      (hm : Merges c ea eb m) : Merges c a b m
  /-- Lazy types that cannot be expanded are in conflict with what they do not accept. -/
  | closed {a b : Ty} (h : Unmerged a b) (hab : c.exactly.Refuses a b) (hba : c.exactly.Refuses b a)
      (hl : (a.isLazy || b.isLazy) = true) (hx : bothExpand a b = false) : Merges c a b ⟨.error, false⟩
  /-- All else meets at the supertype. -/
  | joined {a b s : Ty} (h : Unmerged a b) (hab : c.exactly.Refuses a b) (hba : c.exactly.Refuses b a)
      (hl : (a.isLazy || b.isLazy) = false) (hs : c.Joins a b s) : Merges c a b ⟨s, s.kind ≠ .error⟩

/-! ## What the rules give is the union -/

/-- An entity is no aggregate. -/
theorem isExpansionOf_swap (h : a.isExpansionOf b = true) : b.isExpansionOf a = false := by
  simp only [Ty.isExpansionOf, Bool.and_eq_true, decide_eq_true_eq] at h
  obtain ⟨⟨⟨-, hk⟩, -⟩, -⟩ := h
  rw [Ty.isExpansionOf, Ty.isAggregate, hk]
  rfl

/-- What is collected of two fields that are not both eager aggregates. -/
def collectLeaves (c : Checker) (a b : Ty) : Run (Option Merge) :=
  if a.kind = .objNull then pure (some ⟨b, true⟩)
  else if b.kind = .objNull then pure (some ⟨a, true⟩)
  else do
    let m ← c.mergeLeaves a b
    return some m

theorem outcome_of_mergesLeaves (h : c.MergesLeaves a b m) : (c.collectLeaves a b).outcome = .ok (some m) := by
  have hfound : a.kind ≠ .objNull → b.kind ≠ .objNull → (c.mergeLeaves a b).outcome = .ok m →
      (c.collectLeaves a b).outcome = .ok (some m) := by
    intro ha hb hm
    rw [collectLeaves, if_neg ha, if_neg hb, Run.bind_of_ok hm]
    rfl
  cases h with
  | nullLeft ha =>
    rw [collectLeaves, if_pos ha]
    rfl
  | nullRight ha hb =>
    rw [collectLeaves, if_neg ha, if_pos hb]
    rfl
  | entityRight ha hb h =>
    refine hfound ha hb ?_
    rw [mergeLeaves, if_pos h]
    rfl
  | entityLeft ha hb h =>
    refine hfound ha hb ?_
    rw [mergeLeaves, if_neg (by simp [isExpansionOf_swap h]), if_pos h]
    rfl
  | joined ha hb hab hba hs =>
    refine hfound ha hb ?_
    rw [mergeLeaves, if_neg (by simp [hab]), if_neg (by simp [hba]), Run.bind_of_ok (supertype_of_joins hs)]
    rfl

/-- Eager aggregates of one kind keep all fields, each as it is merged. -/
theorem union_of_fields (hb : b.isEager = true) {shape : Shape} {optional : Bool} {old : List (Bytes × Ty)}
    (ha : a.form = .aggregate shape optional old) (hk : a.kind = b.kind) {merge : Bytes × Ty → Merge}
    (hnew : ∀ e ∈ b.fields, NameMap.find? a.fields e.1 = none → merge e = ⟨e.2, true⟩)
    (hleaves : ∀ e ∈ b.fields, ∀ f, NameMap.find? a.fields e.1 = some f → (f.isEager && e.2.isEager) = false →
      MergesLeaves c f e.2 (merge e))
    (hnested : ∀ e ∈ b.fields, ∀ f, NameMap.find? a.fields e.1 = some f → (f.isEager && e.2.isEager) = true →
      (c.union f e.2).outcome = .ok (merge e)) :
    (c.union a b).outcome = .ok ⟨.ofForm₂ (.aggregate shape (a.optional || b.optional) (a.mergedFields b merge))
      (Token.common a.token b.token) a b, b.fields.all fun e => (merge e).clean⟩ := by
  have hea : a.isEager = true := Ty.isEager_iff.2 ⟨_, _, _, ha⟩
  rw [union, if_neg fun h => (Ty.kind_of_isEager hea).1 h.1, if_neg fun h => (Ty.kind_of_isEager hb).1 h.1,
    if_pos (by rw [hea, hb]; rfl), if_neg (not_not.2 hk)]
  have hmerged : b.fields.filterMap (Run.kept fun e => some (merge e)) = b.fields.map fun e => (e.1, merge e) :=
    congrFun List.filterMap_eq_map b.fields
  refine Run.bind_eq_ok_iff.2
    ⟨b.fields.filterMap (Run.kept fun e => some (merge e)), Run.collectAlong_eq_ok fun e he => ?_, ?_⟩
  · split
    · next hf =>
      rw [hnew e he hf]
      rfl
    · next f hf =>
      cases heager : f.isEager && e.2.isEager with
      | true =>
        rw [Bool.and_eq_true] at heager
        rw [if_neg (Ty.kind_of_isEager heager.1).1, if_neg (Ty.kind_of_isEager heager.2).1, if_pos rfl,
          Run.bind_of_ok (hnested e he f hf (by rw [heager.1, heager.2]; rfl))]
        rfl
      | false =>
        simp only [Bool.false_eq_true, if_false]
        exact outcome_of_mergesLeaves (hleaves e he f hf heager)
  · rw [hmerged, List.map_map, Run.bind_of_ok (outcome_aggregateLike ha _), List.all_map]
    rfl

/-- Lazy types that refuse each other are merged as their expansions. -/
theorem union_of_expansions {ea eb : Ty} (h : Unmerged a b) (hab : c.exactly.Refuses a b)
    (hba : c.exactly.Refuses b a) (hl : (a.isLazy || b.isLazy) = true) (hx : bothExpand a b = true)
    (ha : a.expansion? = some ea) (hb : b.expansion? = some eb) (hp : a.hasProvider = true ∨ b.hasProvider = true)
    (hm : (c.union ea eb).outcome = .ok m) : (c.union a b).outcome = .ok m := by
  rw [union, if_neg h.left, if_neg h.right, if_neg h.uneager, Run.bind_of_ok hab, Run.bind_of_ok hba]
  simp only [Bool.and_self, Bool.false_eq_true, if_false]
  rw [if_pos hl, Run.bind_of_ok (outcome_expandBoth _ _), hx, if_pos rfl]
  split
  · next ea' eb' ha' hb' =>
    rw [ha] at ha'
    rw [hb] at hb'
    cases ha'
    cases hb'
    rw [dif_pos hp.symm]
    exact hm
  · next hne => exact absurd hb (hne _ _ ha)

/-- What the rules give is the union. -/
theorem union_of_merges (h : c.Merges a b m) : (c.union a b).outcome = .ok m := by
  induction h with
  | nullLeft ha hb =>
    rw [union, if_pos ⟨ha, hb⟩]
    rfl
  | nullRight ha hv hb =>
    rw [union, if_neg fun h => ha h.1, if_pos ⟨hb, hv⟩]
    rfl
  | @apart a b ha hb hk =>
    rw [union, if_neg fun h => (Ty.kind_of_isEager ha).1 h.1, if_neg fun h => (Ty.kind_of_isEager hb).1 h.1,
      if_pos (by rw [ha, hb]; rfl), if_pos hk]
    rfl
  | fields hb ha hk merge hnew hleaves _ ih => exact union_of_fields hb ha hk hnew hleaves ih
  | either h hab hba hs =>
    rw [union, if_neg h.left, if_neg h.right, if_neg h.uneager, Run.bind_of_ok (accepts_eq_true_iff.2 hab),
      Run.bind_of_ok (accepts_eq_true_iff.2 hba)]
    exact Run.bind_eq_ok_iff.2 ⟨_, hs, rfl⟩
  | left h hab hba =>
    rw [union, if_neg h.left, if_neg h.right, if_neg h.uneager, Run.bind_of_ok (accepts_eq_true_iff.2 hab),
      Run.bind_of_ok hba]
    rfl
  | right h hab hba =>
    rw [union, if_neg h.left, if_neg h.right, if_neg h.uneager, Run.bind_of_ok hab,
      Run.bind_of_ok (accepts_eq_true_iff.2 hba)]
    rfl
  | expanded h hab hba hl hx ha hb hp _ ih => exact union_of_expansions h hab hba hl hx ha hb hp ih
  | closed h hab hba hl hx =>
    rw [union, if_neg h.left, if_neg h.right, if_neg h.uneager, Run.bind_of_ok hab, Run.bind_of_ok hba]
    simp only [Bool.and_self, Bool.false_eq_true, if_false]
    rw [if_pos hl, Run.bind_of_ok (outcome_expandBoth _ _), hx]
    rfl
  | joined h hab hba hl hs =>
    rw [union, if_neg h.left, if_neg h.right, if_neg h.uneager, Run.bind_of_ok hab, Run.bind_of_ok hba]
    simp only [Bool.and_self, Bool.false_eq_true, if_false]
    rw [if_neg (by simp [hl]), Run.bind_of_ok (supertype_of_joins hs)]
    rfl

/-! ## Sound types are merged -/

/-- Fields that are not both eager aggregates are merged, if they have a supertype wherever it is asked for. -/
theorem exists_mergesLeaves (h : a.kind ≠ .objNull → b.kind ≠ .objNull → a.isExpansionOf b = false →
    b.isExpansionOf a = false → ∃ s, c.Joins a b s) : ∃ m, c.MergesLeaves a b m := by
  by_cases hna : a.kind = .objNull
  · exact ⟨_, .nullLeft hna⟩
  by_cases hnb : b.kind = .objNull
  · exact ⟨_, .nullRight hna hnb⟩
  cases hab : a.isExpansionOf b with
  | true => exact ⟨_, .entityRight hna hnb hab⟩
  | false =>
    cases hba : b.isExpansionOf a with
    | true => exact ⟨_, .entityLeft hna hnb hba⟩
    | false =>
      obtain ⟨s, hs⟩ := h hna hnb hab hba
      exact ⟨_, .joined hna hnb hab hba hs⟩

/-- What becomes of a field of the second of two eager aggregates that are merged. -/
structure MergesAt (c : Checker) (a : Ty) (e : Bytes × Ty) (m : Merge) : Prop where
  new : NameMap.find? a.fields e.1 = none → m = ⟨e.2, true⟩
  leaves : ∀ f, NameMap.find? a.fields e.1 = some f → (f.isEager && e.2.isEager) = false → c.MergesLeaves f e.2 m
  nested : ∀ f, NameMap.find? a.fields e.1 = some f → (f.isEager && e.2.isEager) = true → c.Merges f e.2 m

theorem mergesAt_new {e : Bytes × Ty} (h : NameMap.find? a.fields e.1 = none) : c.MergesAt a e ⟨e.2, true⟩ := by
  constructor
  · exact fun _ => rfl
  all_goals
    intro f hf
    rw [h] at hf
    cases hf

theorem mergesAt_shared {e : Bytes × Ty} {f : Ty} (h : NameMap.find? a.fields e.1 = some f)
    (hleaves : (f.isEager && e.2.isEager) = false → c.MergesLeaves f e.2 m)
    (hnested : (f.isEager && e.2.isEager) = true → c.Merges f e.2 m) : c.MergesAt a e m := by
  refine ⟨fun hnone => ?_, fun f' hf' => ?_, fun f' hf' => ?_⟩
  · rw [h] at hnone
    cases hnone
  · rw [h] at hf'
    cases hf'
    exact hleaves
  · rw [h] at hf'
    cases hf'
    exact hnested

/-- Eager aggregates of one kind are merged if there is a merge at every field of the second. -/
theorem exists_merges_fields (hb : b.isEager = true) {shape : Shape} {optional : Bool} {old : List (Bytes × Ty)}
    (ha : a.form = .aggregate shape optional old) (hk : a.kind = b.kind) {P : Bytes × Ty → Merge → Prop}
    (h : ∀ e ∈ b.fields, ∃ m, c.MergesAt a e m ∧ P e m) :
    ∃ merge : Bytes × Ty → Merge, (∀ e ∈ b.fields, c.MergesAt a e (merge e) ∧ P e (merge e)) ∧
      c.Merges a b ⟨.ofForm₂ (.aggregate shape (a.optional || b.optional) (a.mergedFields b merge))
        (Token.common a.token b.token) a b, b.fields.all fun e => (merge e).clean⟩ := by
  have : Nonempty Merge := ⟨⟨.error, true⟩⟩
  choose! merge hmerge using h
  exact ⟨merge, hmerge, .fields hb ha hk merge (fun e he => (hmerge e he).1.new)
    (fun e he => (hmerge e he).1.leaves) fun e he => (hmerge e he).1.nested⟩

/-- A relation between sound types that stays on the way to their union, where all checks that are made end. -/
structure Mergeable (c : Checker) (R : Ty → Ty → Prop) : Prop where
  sound : ∀ {a b : Ty}, R a b → a.Sound ∧ b.Sound
  decides : ∀ {a b : Ty}, R a b → Unmerged a b →
    (c.exactly.Fits a b ∨ c.exactly.Refuses a b) ∧ (c.exactly.Fits b a ∨ c.exactly.Refuses b a)
  leaves : ∀ {a b : Ty}, R a b → (a.isEager && b.isEager) = true → a.kind = b.kind →
    ∀ e ∈ b.fields, ∀ f, NameMap.find? a.fields e.1 = some f → (f.isEager && e.2.isEager) = false →
    ∃ m, c.MergesLeaves f e.2 m
  nested : ∀ {a b : Ty}, R a b → (a.isEager && b.isEager) = true → a.kind = b.kind →
    ∀ e ∈ b.fields, ∀ f, NameMap.find? a.fields e.1 = some f → (f.isEager && e.2.isEager) = true → R f e.2
  expansion : ∀ {a b ea eb : Ty}, R a b → Unmerged a b → c.exactly.Refuses a b → c.exactly.Refuses b a →
    (a.isLazy || b.isLazy) = true → bothExpand a b = true → a.expansion? = some ea → b.expansion? = some eb → R ea eb
  joined : ∀ {a b : Ty}, R a b → Unmerged a b → c.exactly.Refuses a b → c.exactly.Refuses b a →
    (a.isLazy || b.isLazy) = false → ∃ s, c.Joins a b s

/-- Types in such a relation are merged. -/
theorem Mergeable.exists_merges {R : Ty → Ty → Prop} (hc : c.Mergeable R) (h : R a b) : ∃ m, c.Merges a b m := by
  induction hn : a.weight + b.weight using Nat.strongRecOn generalizing a b with
  | ind n ih =>
    by_cases hleft : a.kind = .objNull ∧ b.kind ≠ .void
    · exact ⟨_, .nullLeft hleft.1 hleft.2⟩
    by_cases hright : b.kind = .objNull ∧ a.kind ≠ .void
    · refine ⟨_, .nullRight (fun hnull => hleft ⟨hnull, ?_⟩) hright.2 hright.1⟩
      rw [hright.1]
      decide
    by_cases heager : (a.isEager && b.isEager) = true
    · obtain ⟨hea, heb⟩ := Bool.and_eq_true_iff.1 heager
      by_cases hkind : a.kind = b.kind
      · obtain ⟨shape, optional, old, hform⟩ := Ty.isEager_iff.1 hea
        have hmerge : ∀ e ∈ b.fields, ∃ m, c.MergesAt a e m ∧ True := by
          intro e he
          cases hf : NameMap.find? a.fields e.1 with
          | none => exact ⟨_, mergesAt_new hf, trivial⟩
          | some f =>
            cases hboth : f.isEager && e.2.isEager with
            | false =>
              obtain ⟨m, hm⟩ := hc.leaves h heager hkind e he f hf hboth
              exact ⟨m, mergesAt_shared hf (fun _ => hm) (by simp [hboth]), trivial⟩
            | true =>
              have hwb := Ty.weight_lt_of_mem_parts (Ty.mem_parts_of_mem_fields he)
              have hwa : f.weight < a.weight :=
                Ty.weight_lt_of_mem_parts (Ty.mem_parts_of_mem_fields (NameMap.mem_of_find? hf))
              obtain ⟨m, hm⟩ := ih (f.weight + e.2.weight) (by omega) (hc.nested h heager hkind e he f hf hboth) rfl
              exact ⟨m, mergesAt_shared hf (by simp [hboth]) fun _ => hm, trivial⟩
        obtain ⟨merge, -, hmerges⟩ := exists_merges_fields heb hform hkind hmerge
        exact ⟨_, hmerges⟩
      · exact ⟨_, .apart hea heb hkind⟩
    have hu : Unmerged a b := ⟨hleft, hright, heager⟩
    obtain ⟨hab | hab, hba | hba⟩ := hc.decides h hu
    · obtain ⟨s, hs⟩ := ends_mutualBound a b
      exact ⟨_, .either hu hab hba hs⟩
    · exact ⟨_, .left hu hab hba⟩
    · exact ⟨_, .right hu hab hba⟩
    cases hl : a.isLazy || b.isLazy with
    | false =>
      obtain ⟨s, hs⟩ := hc.joined h hu hab hba hl
      exact ⟨_, .joined hu hab hba hl hs⟩
    | true =>
      cases hx : bothExpand a b with
      | false => exact ⟨_, .closed hu hab hba hl hx⟩
      | true =>
        obtain ⟨ea, eb, hea, heb⟩ := exists_expansions hx
        have hp := hasProvider_of_either_lazy (hc.sound h).1 (hc.sound h).2 hl
        have hweight : ea.weight + eb.weight < n := hn ▸ weight_add_expansions hea heb hp
        obtain ⟨m, hm⟩ := ih _ hweight (hc.expansion h hu hab hba hl hx hea heb) rfl
        exact ⟨m, .expanded hu hab hba hl hx hea heb hp hm⟩

theorem Covers.mergeable {K : Ty → Prop} (hc : c.Covers K) : c.Mergeable fun a b => K a ∧ K b where
  sound h := ⟨hc.sound h.1, hc.sound h.2⟩
  decides h _ := ⟨hc.decidesExactly h.1 h.2, hc.decidesExactly h.2 h.1⟩
  leaves h _ _ _ he _ hf _ := exists_mergesLeaves fun _ _ _ _ =>
    hc.exists_joins (hc.part h.1 (Ty.mem_parts_of_mem_fields (NameMap.mem_of_find? hf)))
      (hc.part h.2 (Ty.mem_parts_of_mem_fields he))
  nested h _ _ _ he _ hf _ :=
    ⟨hc.part h.1 (Ty.mem_parts_of_mem_fields (NameMap.mem_of_find? hf)), hc.part h.2 (Ty.mem_parts_of_mem_fields he)⟩
  expansion h _ _ _ _ _ hea heb := ⟨hc.expansion h.1 hea, hc.expansion h.2 heb⟩
  joined h _ _ _ _ := hc.exists_joins h.1 h.2

/-- Types that are covered are merged. -/
theorem Covers.exists_merges {K : Ty → Prop} (hc : c.Covers K) (ha : K a) (hb : K b) : ∃ m, c.Merges a b m :=
  hc.mergeable.exists_merges ⟨ha, hb⟩

/-! ## What comes out is merged -/

/-- A run over fields that are not both eager aggregates asks for a supertype that comes out. -/
theorem exists_mergesLeaves_of_ends (ha : a.Sound) (hb : b.Sound) (h : (c.collectLeaves a b).Ends) :
    ∃ m, c.MergesLeaves a b m := by
  refine exists_mergesLeaves fun hna hnb hab hba => ?_
  obtain ⟨found, hfound⟩ := h
  rw [collectLeaves, if_neg hna, if_neg hnb] at hfound
  obtain ⟨m, hm, -⟩ := Run.bind_eq_ok_iff.1 hfound
  rw [mergeLeaves, if_neg (by simp [hab]), if_neg (by simp [hba])] at hm
  obtain ⟨s, hs, -⟩ := Run.bind_eq_ok_iff.1 hm
  exact exists_joins_of_ends ha hb ⟨s, hs⟩

/-- What a run at a shared field of two eager aggregates goes on in. -/
theorem ends_shared (heager : (a.isEager && b.isEager) = true) (hk : a.kind = b.kind) (h : (c.union a b).Ends)
    {e : Bytes × Ty} (he : e ∈ b.fields) {f : Ty} (hf : NameMap.find? a.fields e.1 = some f) :
    ((f.isEager && e.2.isEager) = true → (c.union f e.2).Ends) ∧
      ((f.isEager && e.2.isEager) = false → (c.collectLeaves f e.2).Ends) := by
  obtain ⟨m, hm⟩ := h
  obtain ⟨hea, heb⟩ := Bool.and_eq_true_iff.1 heager
  rw [union, if_neg fun h => (Ty.kind_of_isEager hea).1 h.1, if_neg fun h => (Ty.kind_of_isEager heb).1 h.1,
    if_pos heager, if_neg (not_not.2 hk)] at hm
  obtain ⟨merged, hmerged, -⟩ := Run.bind_eq_ok_iff.1 hm
  have hends := Run.ends_of_collectAlong hmerged e he
  split at hends
  · next hnone =>
    rw [hf] at hnone
    cases hnone
  · next f' hf' =>
    rw [hf] at hf'
    cases hf'
    refine ⟨fun hboth => ?_, fun hboth => ?_⟩
    · obtain ⟨hef, hee⟩ := Bool.and_eq_true_iff.1 hboth
      obtain ⟨found, hfound⟩ := hends
      rw [if_neg (Ty.kind_of_isEager hef).1, if_neg (Ty.kind_of_isEager hee).1, if_pos hboth] at hfound
      obtain ⟨m, hm, -⟩ := Run.bind_eq_ok_iff.1 hfound
      exact ⟨m, hm⟩
    · simp only [hboth, Bool.false_eq_true, if_false] at hends
      exact hends

/-- A run that ends made its checks and went on in runs that end. -/
theorem mergeable_of_ends (c : Checker) : c.Mergeable fun a b => a.Sound ∧ b.Sound ∧ (c.union a b).Ends where
  sound h := ⟨h.1, h.2.1⟩
  decides := by
    rintro a b ⟨-, -, m, hm⟩ hu
    rw [union, if_neg hu.left, if_neg hu.right, if_neg hu.uneager] at hm
    obtain ⟨ab, hab, hm⟩ := Run.bind_eq_ok_iff.1 hm
    obtain ⟨ba, hba, -⟩ := Run.bind_eq_ok_iff.1 hm
    exact ⟨fits_or_refuses_of_accepts hab, fits_or_refuses_of_accepts hba⟩
  leaves := by
    rintro a b ⟨ha, hb, h⟩ heager hk e he f hf hboth
    exact exists_mergesLeaves_of_ends (ha.part (Ty.mem_parts_of_mem_fields (NameMap.mem_of_find? hf)))
      (hb.part (Ty.mem_parts_of_mem_fields he)) ((ends_shared heager hk h he hf).2 hboth)
  nested := by
    rintro a b ⟨ha, hb, h⟩ heager hk e he f hf hboth
    exact ⟨ha.part (Ty.mem_parts_of_mem_fields (NameMap.mem_of_find? hf)), hb.part (Ty.mem_parts_of_mem_fields he),
      (ends_shared heager hk h he hf).1 hboth⟩
  expansion := by
    rintro a b ea eb ⟨ha, hb, m, hm⟩ hu hab hba hl hx hea heb
    refine ⟨sound_expansion ha hea, sound_expansion hb heb, m, ?_⟩
    rw [union, if_neg hu.left, if_neg hu.right, if_neg hu.uneager, Run.bind_of_ok hab, Run.bind_of_ok hba] at hm
    simp only [Bool.and_self, Bool.false_eq_true, if_false] at hm
    rw [if_pos hl, Run.bind_of_ok (outcome_expandBoth _ _), hx, if_pos rfl] at hm
    split at hm
    · next ea' eb' hea' heb' =>
      rw [hea] at hea'
      rw [heb] at heb'
      cases hea'
      cases heb'
      rwa [dif_pos (hasProvider_of_either_lazy ha hb hl).symm] at hm
    · next hne => exact absurd heb (hne _ _ hea)
  joined := by
    rintro a b ⟨ha, hb, m, hm⟩ hu hab hba hl
    rw [union, if_neg hu.left, if_neg hu.right, if_neg hu.uneager, Run.bind_of_ok hab, Run.bind_of_ok hba] at hm
    simp only [Bool.and_self, Bool.false_eq_true, if_false] at hm
    rw [if_neg (by simp [hl])] at hm
    obtain ⟨s, hs, -⟩ := Run.bind_eq_ok_iff.1 hm
    exact exists_joins_of_ends ha hb ⟨s, hs⟩

/-- The union of sound types comes from the rules, if there is one. -/
theorem merges_of_union (ha : a.Sound) (hb : b.Sound) (h : (c.union a b).outcome = .ok m) : c.Merges a b m := by
  obtain ⟨m', hm'⟩ := (mergeable_of_ends c).exists_merges ⟨ha, hb, m, h⟩
  have hsame := union_of_merges hm'
  rw [h] at hsame
  cases hsame
  exact hm'

end Checker

end FormulaTypes
