import Mathlib.Logic.Function.Basic
import FormulaTypes.Memo
import FormulaTypes.Proofs.NameMap
import FormulaTypes.Proofs.Ty.Sound
import FormulaTypes.Ty.Edit

/-!
# Memos that remember what is true

A cell belongs to one provider, so a memo can be read against what stands behind each cell. It is honest if it has
nothing else for a cell in use, and nothing at all for the cells that are still free (`Memo.Honest`). Whatever demands
are made of providers that live in their cells, an honest memo stays honest (`Honest.replay`) and gives the answers that
the providers give without one: for one field (`Honest.field?_eq`) and for all of them (`Honest.expansion?_eq`).
-/

namespace FormulaTypes

/-- The cell of the provider, if it has one, is in use, and the provider is what stands behind it. -/
def Provider.LivesIn (behind : Nat → Bytes → Option Ty) (next : Nat) (p : Provider Ty) : Prop :=
  ∀ cell ∈ p.cell, cell < next ∧ behind cell = p.get?

/-- The provider of the type, if it has one, lives in its cell. -/
def Ty.LivesIn (behind : Nat → Bytes → Option Ty) (next : Nat) (t : Ty) : Prop :=
  ∀ p ∈ t.provider?, p.LivesIn behind next

namespace Memo

variable {behind : Nat → Bytes → Option Ty} {next : Nat} {m : Memo} {p : Provider Ty} {t : Ty}

/-- The memo has nothing but what stands behind the cells in use. -/
def Honest (behind : Nat → Bytes → Option Ty) (next : Nat) (m : Memo) : Prop :=
  ∀ e ∈ m.entries, e.1 < next ∧ behind e.1 e.2.1 = some e.2.2

/-! ## One field -/

theorem Honest.get?_of_find? (hm : m.Honest behind next) (hp : p.LivesIn behind next) {name : Bytes}
    (h : m.find? p.cell name = some t) : p.get? name = some t := by
  obtain ⟨e, he, rfl⟩ := Option.map_eq_some_iff.1 h
  obtain ⟨hcell, rfl⟩ : some e.1 = p.cell ∧ e.2.1 = name := by simpa using List.find?_some he
  rw [← (hp e.1 hcell.symm).2]
  exact (hm e (List.mem_of_find?_eq_some he)).2

/-- A demand is answered as the provider does, and at most that answer is remembered. -/
theorem Honest.get_cases (hm : m.Honest behind next) (hp : p.LivesIn behind next) (name : Bytes) :
    (m.get p name).1 = p.get? name ∧
      ((m.get p name).2.1 = m ∨ ∃ t, p.get? name = some t ∧ (m.get p name).2.1 = m.remember p.cell name t) := by
  unfold get
  cases hfind : m.find? p.cell name with
  | some t => exact ⟨(hm.get?_of_find? hp hfind).symm, .inl rfl⟩
  | none =>
    unfold Provider.get?
    cases NameMap.find? p.resolvers name with
    | none => exact ⟨rfl, .inl rfl⟩
    | some r =>
      cases r with
      | bound t => exact ⟨rfl, .inr ⟨t, rfl, rfl⟩⟩
      | host result =>
        cases result with
        | none => exact ⟨rfl, .inl rfl⟩
        | some t => exact ⟨rfl, .inr ⟨t, rfl, rfl⟩⟩

theorem Honest.remember (hm : m.Honest behind next) (hp : p.LivesIn behind next) {name : Bytes}
    (h : p.get? name = some t) : (m.remember p.cell name t).Honest behind next := by
  cases hcell : p.cell with
  | none => exact hm
  | some cell =>
    obtain ⟨hlt, hbehind⟩ := hp cell hcell
    refine List.forall_mem_cons.2 ⟨⟨hlt, ?_⟩, hm⟩
    rw [hbehind]
    exact h

theorem Honest.get (hm : m.Honest behind next) (hp : p.LivesIn behind next) (name : Bytes) :
    (m.get p name).2.1.Honest behind next := by
  obtain ⟨-, hsame | ⟨t, ht, hmore⟩⟩ := hm.get_cases hp name
  · rw [hsame]
    exact hm
  · rw [hmore]
    exact hm.remember hp ht

/-- A memo stays honest whatever is demanded. -/
theorem Honest.replay (hm : m.Honest behind next) {demands : List Demand}
    (hd : ∀ d ∈ demands, d.provider.LivesIn behind next) : (m.replay demands).1.Honest behind next := by
  induction demands generalizing m with
  | nil => exact hm
  | cons d demands ih =>
    obtain ⟨hfirst, hrest⟩ := List.forall_mem_cons.1 hd
    exact ih (hm.get hfirst d.field) hrest

/-- The type of a field, asked of the memo first. -/
def field? (m : Memo) (t : Ty) (name : Bytes) : Option Ty :=
  match t.provider? with
  | some p => (m.get p name).1
  | none => NameMap.find? t.fields name

theorem Honest.field?_eq (hm : m.Honest behind next) (ht : t.LivesIn behind next) (name : Bytes) :
    m.field? t name = t.field? name := by
  unfold Memo.field? Ty.field?
  cases hp : t.provider? with
  | none => rfl
  | some p => exact (hm.get_cases (ht p hp) name).1

/-! ## All fields -/

/-- The fields that resolve, asked of the memo one after another; each demand finds what those before it left. -/
def fields (m : Memo) (p : Provider Ty) : List Bytes → NameMap Ty
  | [] => []
  | name :: rest => ((m.get p name).1.map (name, ·)).toList ++ fields (m.get p name).2.1 p rest

/-- The expansion of a type, its fields asked of the memo. -/
def expansion? (m : Memo) : Ty → Option Ty
  | .node (.lazy isTable optional (some p)) token sources =>
    if p.expandable then
      some (.node (.aggregate (if isTable then .table else .record) optional (m.fields p p.names)) token sources)
    else none
  | t => some t

theorem Honest.fields_eq (hm : m.Honest behind next) (hp : p.LivesIn behind next) (names : List Bytes) :
    m.fields p names = names.filterMap fun name => (p.get? name).map (name, ·) := by
  induction names generalizing m with
  | nil => rfl
  | cons name names ih =>
    rw [Memo.fields, (hm.get_cases hp name).1, ih (hm.get hp name), List.filterMap_cons]
    cases p.get? name <;> rfl

/-- Asking for each name in turn gives the fields of a provider. -/
theorem fields_eq_filterMap (h : NameMap.Ordered p.resolvers) :
    p.fields = p.names.filterMap fun name => (p.get? name).map (name, ·) := by
  rw [Provider.names, NameMap.names, List.filterMap_map, Provider.fields]
  refine List.filterMap_congr fun e he => ?_
  have hget : p.get? e.1 = e.2.result? := by
    rw [Provider.get?, NameMap.find?_of_mem h he]
    rfl
  rw [Function.comp_apply, hget]

theorem Honest.expansion?_eq (hm : m.Honest behind next) (ht : t.LivesIn behind next) (ho : t.form.Ordered) :
    m.expansion? t = t.expansion? := by
  obtain ⟨form, token, sources⟩ := t
  cases form with
  | leaf | enum | choices | aggregate => rfl
  | lazy isTable optional provider =>
    cases provider with
    | none => rfl
    | some p =>
      rw [Memo.expansion?, Ty.expansion?, Provider.expand?, hm.fields_eq (ht p rfl), fields_eq_filterMap ho]
      split <;> rfl

/-! ## New cells -/

/-- What lives in a cell does not notice what is put behind a free one. -/
theorem livesIn_update (h : p.LivesIn behind next) (get? : Bytes → Option Ty) :
    p.LivesIn (Function.update behind next get?) (next + 1) := by
  intro cell hcell
  obtain ⟨hlt, hbehind⟩ := h cell hcell
  refine ⟨by omega, ?_⟩
  rw [Function.update_of_ne (by omega), hbehind]

theorem Honest.update (hm : m.Honest behind next) (get? : Bytes → Option Ty) :
    m.Honest (Function.update behind next get?) (next + 1) := by
  intro e he
  obtain ⟨hlt, hbehind⟩ := hm e he
  refine ⟨by omega, ?_⟩
  rw [Function.update_of_ne (by omega), hbehind]

/-- A provider that gets a free cell lives in it. -/
theorem livesIn_settle (h : p.cell = none) :
    (p.settle next).1.LivesIn (Function.update behind next p.get?) (p.settle next).2 := by
  unfold Provider.settle
  rw [h]
  rintro cell ⟨⟩
  exact ⟨Nat.lt_succ_self next, Function.update_self next p.get? behind⟩

end Memo

end FormulaTypes
