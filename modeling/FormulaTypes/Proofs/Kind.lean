import FormulaTypes.Checker.Acceptance

/-!
# The hierarchy of kinds

* Kinds are ordered by the hierarchy with `error` over all, and the join of two kinds is the least one over both
  (`Kind.isOver_join_iff`). So it does not depend on their order (`Kind.join_comm`).
* What stands above a kind in the hierarchy accepts it, `error` and three kinds of dates and times aside
  (`Kind.widens_of_mem_ancestors`).
* Acceptance between kinds is transitive (`Rules.kindAccepts_trans`).
-/

namespace FormulaTypes

namespace Kind

/-- Opaque kinds are kinds of types, and neither aggregates nor enums. -/
theorem of_isOpaque {k : Kind} (h : k.isOpaque = true) : k.isValid = true ∧ k.isAggregate = false ∧ k ≠ .enum := by
  cases k <;> first | exact ⟨rfl, rfl, by decide⟩ | cases h

/-- Plain kinds are kinds of types, and neither aggregates nor enums. -/
theorem of_isPrimitive {k : Kind} (h : k.isPrimitive = true) :
    k.isValid = true ∧ k.isAggregate = false ∧ k ≠ .enum := by
  cases k <;> first | exact ⟨rfl, rfl, by decide⟩ | cases h

/-- Kinds that acceptance compares: neither enums nor kinds that fit or do not fit whatever the other one is. -/
def isConcrete : Kind → Bool
  | .void | .error | .objNull | .unknown | .deferred | .enum => false
  | _ => true

theorem isConcrete_of_isOpaque {k : Kind} (h : k.isOpaque = true) : k.isConcrete = true := by
  cases k <;> first | rfl | cases h

theorem isConcrete_of_isPrimitive {k : Kind} (h : k.isPrimitive = true) : k.isConcrete = true := by
  cases k <;> first | rfl | cases h

theorem isConcrete_of_isAggregate {k : Kind} (h : k.isAggregate = true) : k.isConcrete = true := by
  cases k <;> first | rfl | cases h

theorem isValid_of_mem_ancestors {k above : Kind} (h : above ∈ k.ancestors) : above.isValid = true := by
  have hall : k.ancestors.all isValid = true := by
    cases k <;> rfl
  exact List.all_eq_true.1 hall above h

/-! ## Shapes -/

/-- Records have the shape of lazy records, tables that of lazy tables. -/
theorem sameShape_cases {eager lazy : Kind} (h : eager.sameShape lazy = true) :
    (eager = .record ∧ lazy = .lazyRecord) ∨ (eager = .table ∧ lazy = .lazyTable) := by
  unfold sameShape at h
  split at h
  · exact .inl ⟨rfl, rfl⟩
  · exact .inr ⟨rfl, rfl⟩
  · cases h

/-- Only one eager kind has the shape of a lazy one. -/
theorem sameShape_iff_eq {a b lazy : Kind} (h : a.sameShape lazy = true) : b.sameShape lazy = true ↔ a = b := by
  constructor
  · intro hb
    rcases sameShape_cases h with ⟨rfl, rfl⟩ | ⟨rfl, rfl⟩ <;> rcases sameShape_cases hb with ⟨rfl, hl⟩ | ⟨rfl, hl⟩ <;>
      first | rfl | cases hl
  · rintro rfl
    exact h

/-! ## Lines -/

/-- The kinds at or above a kind, nearest first. -/
def line (k : Kind) : List Kind := k :: k.ancestors

theorem mem_line_self (k : Kind) : k ∈ k.line := List.mem_cons_self

/-- A line goes on with that of the next kind. -/
theorem line_of_superkind {k s : Kind} (h : k.superkind? = some s) : k.line = k :: s.line := by
  rw [line, ancestors_eq, h, line]

theorem line_of_top {k : Kind} (h : k.superkind? = none) : k.line = [k] := by
  rw [line, ancestors_eq, h]

/-- What holds of a kind from what holds of the next one above it holds of all kinds. -/
theorem lineInduction {P : Kind → Prop} (top : ∀ k, k.superkind? = none → P k)
    (up : ∀ k s, k.superkind? = some s → P s → P k) (k : Kind) : P k := by
  induction hn : k.ancestors.length generalizing k with
  | zero =>
    refine top k ?_
    rw [ancestors_eq] at hn
    cases hs : k.superkind? with
    | none => rfl
    | some s =>
      rw [hs] at hn
      cases hn
  | succ n ih =>
    rw [ancestors_eq] at hn
    cases hs : k.superkind? with
    | none => exact top k hs
    | some s =>
      rw [hs] at hn
      exact up k s hs (ih s (Nat.succ.inj hn))

theorem mem_line_trans {a b c : Kind} (hab : a ∈ b.line) (hbc : b ∈ c.line) : a ∈ c.line := by
  induction c using lineInduction with
  | top c hc =>
    rw [line_of_top hc] at hbc
    rwa [List.mem_singleton.1 hbc] at hab
  | up c s hs ih =>
    rw [line_of_superkind hs] at hbc ⊢
    rcases List.mem_cons.1 hbc with rfl | hbc
    · rwa [line_of_superkind hs] at hab
    · exact List.mem_cons_of_mem _ (ih hbc)

/-- The line of a kind above is shorter. -/
theorem length_line_lt {a b : Kind} (h : a ∈ b.line) (hne : a ≠ b) : a.line.length < b.line.length := by
  induction b using lineInduction with
  | top b hb =>
    rw [line_of_top hb] at h
    exact absurd (List.mem_singleton.1 h) hne
  | up b s hs ih =>
    rw [line_of_superkind hs] at h ⊢
    have h := (List.mem_cons.1 h).resolve_left hne
    rw [List.length_cons]
    by_cases has : a = s
    · rw [has]
      omega
    · have := ih h has
      omega

/-! ## Joins -/

/-- The join of two kinds is at or above both, or `error`. -/
theorem join_cases (a b : Kind) :
    a.join b = .error ∨ (a.join b = a ∨ a.join b ∈ a.ancestors) ∧ (a.join b = b ∨ a.join b ∈ b.ancestors) := by
  unfold join
  cases h : (a :: a.ancestors).find? fun k => k = b || k.isAbove b with
  | none => exact .inl rfl
  | some k =>
    right
    have hmem := List.mem_of_find?_eq_some h
    have hb := List.find?_some h
    simp only [isAbove, Bool.or_eq_true, decide_eq_true_eq, List.contains_iff_mem] at hb
    exact ⟨List.mem_cons.1 hmem, hb⟩

theorem isValid_join {a : Kind} (h : a.isValid = true) (b : Kind) : (a.join b).isValid = true := by
  rcases join_cases a b with he | ⟨ha | ha, -⟩
  · rw [he]
    rfl
  · rwa [ha]
  · exact isValid_of_mem_ancestors ha

theorem test_join (a b : Kind) : (a = b || a.isAbove b) = decide (a ∈ b.line) := by
  rw [isAbove, Bool.eq_iff_iff]
  simp [line]

/-- The join climbs from the first kind until it stands at or above the second. -/
theorem join_of_mem_line {a b : Kind} (h : a ∈ b.line) : a.join b = a := by
  rw [join, List.find?_cons, test_join, decide_eq_true h]
  rfl

theorem join_of_superkind {a b s : Kind} (h : a ∉ b.line) (hs : a.superkind? = some s) : a.join b = s.join b := by
  rw [join, List.find?_cons, test_join, decide_eq_false h]
  simp only
  rw [ancestors_eq, hs]
  rfl

/-! ## The order of the hierarchy -/

/-- The kind is at or above another one; `error` is above all. -/
def IsOver (above k : Kind) : Prop := above ∈ k.line ∨ above = .error

theorem isOver_self (k : Kind) : k.IsOver k := .inl k.mem_line_self

theorem IsOver.trans {a b c : Kind} (hab : a.IsOver b) (hbc : b.IsOver c) : a.IsOver c := by
  rcases hab with hab | rfl
  · rcases hbc with hbc | rfl
    · exact .inl (mem_line_trans hab hbc)
    · exact .inr (List.mem_singleton.1 hab)
  · exact .inr rfl

theorem IsOver.antisymm {a b : Kind} (hab : a.IsOver b) (hba : b.IsOver a) : a = b := by
  rcases hab with hab | rfl
  · rcases hba with hba | rfl
    · by_cases hne : a = b
      · exact hne
      · have hlt := length_line_lt hab hne
        have hgt := length_line_lt hba (Ne.symm hne)
        omega
    · exact List.mem_singleton.1 hab
  · rcases hba with hba | rfl
    · exact (List.mem_singleton.1 hba).symm
    · rfl

/-- A kind is over the join of two kinds exactly if it is over both. -/
theorem isOver_join_iff {u a b : Kind} : u.IsOver (a.join b) ↔ u.IsOver a ∧ u.IsOver b := by
  constructor
  · intro h
    have hup : (a.join b).IsOver a ∧ (a.join b).IsOver b := by
      rcases join_cases a b with he | ⟨ha, hb⟩
      · exact ⟨.inr he, .inr he⟩
      · exact ⟨.inl (List.mem_cons.2 ha), .inl (List.mem_cons.2 hb)⟩
    exact ⟨h.trans hup.1, h.trans hup.2⟩
  · rintro ⟨ha | he, hb | he⟩
    · left
      induction a using lineInduction with
      | top a htop =>
        rw [line_of_top htop, List.mem_singleton] at ha
        subst ha
        rw [join_of_mem_line hb]
        exact u.mem_line_self
      | up a s hs ih =>
        by_cases hab : a ∈ b.line
        · rwa [join_of_mem_line hab]
        · rw [join_of_superkind hab hs]
          rw [line_of_superkind hs] at ha
          refine ih ((List.mem_cons.1 ha).resolve_left ?_)
          rintro rfl
          exact hab hb
    · exact .inr he
    · exact .inr he
    · exact .inr he

/-- Kinds with the same kinds over them are the same. -/
theorem eq_of_isOver_iff {a b : Kind} (h : ∀ u : Kind, u.IsOver a ↔ u.IsOver b) : a = b :=
  ((h a).1 a.isOver_self).antisymm ((h b).2 b.isOver_self)

theorem join_comm (a b : Kind) : a.join b = b.join a := by
  refine eq_of_isOver_iff fun u => ?_
  rw [isOver_join_iff, isOver_join_iff, and_comm]

theorem join_self (a : Kind) : a.join a = a := join_of_mem_line a.mem_line_self

theorem error_join (a : Kind) : error.join a = .error := by
  rcases join_cases error a with h | ⟨h | h, -⟩
  · exact h
  · exact h
  · cases h

/-! ## Acceptance between kinds -/

/-- The kinds of dates and times whose superkind does not accept them. -/
def isLooseDate : Kind → Bool
  | .date | .time | .dateTimeNoTimeZone => true
  | _ => false

/-- What stands above a kind accepts it. -/
theorem widens_of_mem_ancestors {k above : Kind} (hk : k.isLooseDate = false) (h : above ∈ k.ancestors) :
    above = .error ∨ above.widens k = true := by
  have hall : k.isLooseDate = false → (k.ancestors.all fun x => x = .error || x.widens k) = true := by
    cases k with
    | beyond => exact fun _ => rfl
    | _ => decide
  have := List.all_eq_true.1 (hall hk) above h
  simpa using this

theorem widens_trans {a b c : Kind} (hab : a.widens b = true) (hbc : b.widens c = true) : a.widens c = true := by
  unfold widens at hab
  split at hab <;> first | (cases c <;> first | rfl | cases hbc) | cases hab

end Kind

namespace Rules

/-- Dates and times accept nothing but themselves. -/
theorem eq_of_kindAccepts_of_isDateTime {r : Rules} {b c : Kind} (hb : b.isDateTime = true)
    (h : r.kindAccepts b c = true) : b = c := by
  have hn : b ≠ .number := by
    rintro rfl
    cases hb
  have hw : b.widens c = false := by
    cases b <;> first | rfl | cases hb
  simpa [kindAccepts, hn, hw] using h

/-- Apart from plain kinds, a kind accepts only itself. -/
theorem kindAccepts_cases {r : Rules} {a b : Kind} (h : r.kindAccepts a b = true) :
    a = b ∨ (a.isPrimitive = true ∧ b.isPrimitive = true) := by
  simp only [kindAccepts, Bool.or_eq_true, Bool.and_eq_true, Bool.not_eq_true', decide_eq_true_eq] at h
  rcases h with (rfl | ⟨⟨rfl, hdate⟩, -⟩) | ⟨-, hwidens⟩
  · exact .inl rfl
  · right
    cases b <;> first | exact ⟨rfl, rfl⟩ | cases hdate
  · right
    unfold Kind.widens at hwidens
    split at hwidens <;> first | exact ⟨rfl, rfl⟩ | cases hwidens

/-- Acceptance between kinds is transitive. -/
theorem kindAccepts_trans {r : Rules} {a b c : Kind} (hab : r.kindAccepts a b = true) (hbc : r.kindAccepts b c = true) :
    r.kindAccepts a c = true := by
  have hab' := hab
  have hbc' := hbc
  simp only [kindAccepts, Bool.or_eq_true, Bool.and_eq_true, Bool.not_eq_true', decide_eq_true_eq] at hab hbc
  rcases hab with (rfl | ⟨⟨rfl, hdate⟩, hlegacy⟩) | ⟨hv, hab⟩
  · exact hbc'
  · obtain rfl := eq_of_kindAccepts_of_isDateTime hdate hbc'
    exact hab'
  · rcases hbc with (rfl | ⟨⟨rfl, hdate⟩, -⟩) | ⟨-, hbc⟩
    · exact hab'
    · cases a <;> cases hab
    · simp [kindAccepts, hv, Kind.widens_trans hab hbc]

end Rules

end FormulaTypes
