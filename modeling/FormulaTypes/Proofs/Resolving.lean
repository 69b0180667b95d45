import FormulaTypes.Proofs.Memo

/-!
# Which demands run a resolver

A demand runs a resolver if there is one and nothing is remembered for the field (`Memo.runs`); the calls that the host
sees are those of its own resolvers (`calls_replay`). Of the demands that are made one after another of the instance in
a cell, the first one runs a resolver that gives a type (`countP_resolving_of_some`), and each of them runs one that
gives none (`countP_resolving_of_none`).
-/

namespace FormulaTypes

/-- The demand is one of a field of the instance in a cell. -/
def Demand.isAt (cell : Nat) (name : Bytes) (d : Demand) : Bool := d.provider.cell = some cell && d.field = name

/-- The call that the host sees if the resolver of a demand is run. Fields that were bound call nobody. -/
def Demand.call? (d : Demand) : Option Call :=
  match NameMap.find? d.provider.resolvers d.field with
  | some (.host _) => some ⟨d.provider.identity, d.field⟩
  | _ => none

namespace Memo

variable {behind : Nat → Bytes → Option Ty} {next cell : Nat} {m : Memo} {d : Demand} {demands : List Demand}
  {name : Bytes} {t : Ty}

/-- The demand runs a resolver: there is one, and nothing is remembered. -/
def runs (m : Memo) (d : Demand) : Bool := (m.find? d.provider.cell d.field).isNone && d.provider.has d.field

/-- Of some demands, made one after another, those that run a resolver. -/
def resolving (m : Memo) : List Demand → List Demand
  | [] => []
  | d :: rest => (if m.runs d then [d] else []) ++ resolving (m.get d.provider d.field).2.1 rest

theorem resolving_append (m : Memo) (demands more : List Demand) :
    m.resolving (demands ++ more) = m.resolving demands ++ (m.replay demands).1.resolving more := by
  induction demands generalizing m with
  | nil => rfl
  | cons d demands ih =>
    rw [List.cons_append, resolving, ih, resolving, List.append_assoc]
    rfl

/-- What a demand leaves behind: nothing new, or what the resolver that it runs gives. -/
theorem get_snd_cases (m : Memo) (d : Demand) :
    (m.runs d = true ∧ ∃ t, d.provider.get? d.field = some t ∧
        (m.get d.provider d.field).2.1 = m.remember d.provider.cell d.field t) ∨
      ((m.runs d = true → d.provider.get? d.field = none) ∧ (m.get d.provider d.field).2.1 = m) := by
  unfold get runs Provider.has NameMap.contains Provider.get?
  cases m.find? d.provider.cell d.field with
  | some t => exact .inr ⟨by simp, rfl⟩
  | none =>
    cases NameMap.find? d.provider.resolvers d.field with
    | none => exact .inr ⟨by simp, rfl⟩
    | some r =>
      cases r with
      | bound t => exact .inl ⟨rfl, t, rfl, rfl⟩
      | host result =>
        cases result with
        | none => exact .inr ⟨fun _ => rfl, rfl⟩
        | some t => exact .inl ⟨rfl, t, rfl, rfl⟩

/-- The host sees the resolvers that are run, but for those of fields that were bound. -/
theorem calls_get (m : Memo) (d : Demand) :
    (m.get d.provider d.field).2.2 = (if m.runs d then [d] else []).filterMap Demand.call? := by
  unfold get runs Provider.has NameMap.contains
  cases m.find? d.provider.cell d.field with
  | some t => rfl
  | none =>
    cases hr : NameMap.find? d.provider.resolvers d.field with
    | none => rfl
    | some r =>
      cases r with
      | bound t => simp [Demand.call?, hr]
      | host result => cases result <;> simp [Demand.call?, hr]

theorem calls_replay (m : Memo) (demands : List Demand) :
    (m.replay demands).2 = (m.resolving demands).filterMap Demand.call? := by
  induction demands generalizing m with
  | nil => rfl
  | cons d demands ih =>
    rw [resolving, List.filterMap_append, ← calls_get, ← ih]
    rfl

theorem find?_remember_self (m : Memo) (cell : Nat) (name : Bytes) (t : Ty) :
    (m.remember (some cell) name t).find? (some cell) name = some t := by
  simp [remember, find?]

/-- What is remembered stays remembered, whatever comes to it. -/
theorem isSome_find?_remember (h : (m.find? (some cell) name).isSome = true) (other : Option Nat) (field : Bytes)
    (t : Ty) : ((m.remember other field t).find? (some cell) name).isSome = true := by
  cases other with
  | none => exact h
  | some n =>
    unfold find? at h
    rw [remember, find?, List.find?_cons]
    split
    · rfl
    · exact h

theorem isSome_find?_get (h : (m.find? (some cell) name).isSome = true) (d : Demand) :
    ((m.get d.provider d.field).2.1.find? (some cell) name).isSome = true := by
  rcases get_snd_cases m d with ⟨-, t, -, hmore⟩ | ⟨-, hsame⟩
  · rw [hmore]
    exact isSome_find?_remember h _ _ t
  · rwa [hsame]

/-- For a field that is remembered no resolver is run. -/
theorem countP_resolving_of_remembered (h : (m.find? (some cell) name).isSome = true) :
    (m.resolving demands).countP (Demand.isAt cell name) = 0 := by
  induction demands generalizing m with
  | nil => rfl
  | cons d demands ih =>
    rw [resolving, List.countP_append, ih (isSome_find?_get h d), Nat.add_zero]
    split
    · next hruns =>
      have hnot : d.isAt cell name = false := by
        rw [Bool.eq_false_iff]
        intro hat
        obtain ⟨hcell, rfl⟩ : d.provider.cell = some cell ∧ d.field = name := by simpa [Demand.isAt] using hat
        rw [runs, hcell, Bool.and_eq_true, Option.isNone_iff_eq_none] at hruns
        rw [hruns.1] at h
        cases h
      simp [hnot]
    · rfl

/-- A resolver that gives a type is run by the first demand only. -/
theorem countP_resolving_of_some (hnew : m.find? (some cell) name = none)
    (hd : ∀ d ∈ demands, d.isAt cell name = true → (d.provider.get? name).isSome = true) :
    (m.resolving demands).countP (Demand.isAt cell name) = min 1 (demands.countP (Demand.isAt cell name)) := by
  induction demands generalizing m with
  | nil => rfl
  | cons d demands ih =>
    obtain ⟨hfirst, hrest⟩ := List.forall_mem_cons.1 hd
    rw [resolving, List.countP_append, List.countP_cons]
    cases hat : d.isAt cell name with
    | true =>
      obtain ⟨t, ht⟩ := Option.isSome_iff_exists.1 (hfirst hat)
      obtain ⟨hcell, rfl⟩ : d.provider.cell = some cell ∧ d.field = name := by simpa [Demand.isAt] using hat
      have hruns : m.runs d = true := by
        have hhas : d.provider.has d.field = true := by
          obtain ⟨r, hr, -⟩ := Option.bind_eq_some_iff.1 ht
          simp [Provider.has, NameMap.contains, hr]
        simp [runs, hcell, hnew, hhas]
      have hafter : ((m.get d.provider d.field).2.1.find? (some cell) d.field).isSome = true := by
        rcases get_snd_cases m d with ⟨-, t', -, hmore⟩ | ⟨hnone, -⟩
        · rw [hmore, hcell, find?_remember_self]
          rfl
        · rw [hnone hruns] at ht
          cases ht
      rw [countP_resolving_of_remembered hafter, if_pos hruns]
      simp [hat]
    | false =>
      have hkept : (m.get d.provider d.field).2.1.find? (some cell) name = none := by
        rcases get_snd_cases m d with ⟨-, t, -, hmore⟩ | ⟨-, hsame⟩
        · rw [hmore]
          cases hcell : d.provider.cell with
          | none => exact hnew
          | some n =>
            have hne : ¬ (n = cell ∧ d.field = name) := by
              intro h
              simp [Demand.isAt, hcell, h.1, h.2] at hat
            unfold find? at hnew
            rw [remember, find?, List.find?_cons_of_neg (by simpa using hne)]
            exact hnew
        · rwa [hsame]
      rw [ih hkept hrest]
      split <;> simp [hat]

/-- A resolver that gives none is run by every demand. -/
theorem countP_resolving_of_none (hm : m.Honest behind next) (hlive : ∀ d ∈ demands, d.provider.LivesIn behind next)
    (hd : ∀ d ∈ demands, d.isAt cell name = true → d.provider.has name = true ∧ d.provider.get? name = none) :
    (m.resolving demands).countP (Demand.isAt cell name) = demands.countP (Demand.isAt cell name) := by
  induction demands generalizing m with
  | nil => rfl
  | cons d demands ih =>
    obtain ⟨hfirst, hrest⟩ := List.forall_mem_cons.1 hd
    obtain ⟨hl, hlives⟩ := List.forall_mem_cons.1 hlive
    rw [resolving, List.countP_append, List.countP_cons, ih (hm.get hl d.field) hlives hrest, Nat.add_comm]
    congr 1
    cases hat : d.isAt cell name with
    | true =>
      obtain ⟨hhas, hnone⟩ := hfirst hat
      obtain ⟨-, rfl⟩ : d.provider.cell = some cell ∧ d.field = name := by simpa [Demand.isAt] using hat
      have hnew : m.find? d.provider.cell d.field = none := by
        rw [Option.eq_none_iff_forall_ne_some]
        intro t ht
        rw [hm.get?_of_find? hl ht] at hnone
        cases hnone
      simp [runs, hnew, hhas, hat]
    | false => split <;> simp [hat]

end Memo

end FormulaTypes
