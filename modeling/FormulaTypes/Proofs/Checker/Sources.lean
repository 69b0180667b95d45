import FormulaTypes.Proofs.Checker.UnionBelow
import FormulaTypes.Proofs.Checker.Overlaps

/-!
# Sources are carried

What comes of two types has the sources of both and no others (`Ty.Carries`), unless it is `error`: supertypes
(`carries_of_joins`), unions (`carries_of_merges`) and intersections (`carries_of_overlaps`). Equality does not see
sources, so each rule has to merge them by itself. Only the sources of the two types count, not those of their fields:
an expansion has the sources of the lazy type (`sources_expansion`), and all other rules start from the types as such.
-/

namespace FormulaTypes

namespace Ty

variable {s a b t : Ty}

/-- The type has the sources of two types and no others. -/
def Carries (s a b : Ty) : Prop := ∀ source, source ∈ s.sources ↔ source ∈ a.sources ∨ source ∈ b.sources

theorem Carries.symm (h : s.Carries a b) : s.Carries b a := fun source => (h source).trans or_comm

theorem sources_withSourcesOf (t u : Ty) : (t.withSourcesOf u).sources = t.sources.insertAll u.sources.members := by
  cases t
  rfl

theorem carries_withSourcesOf (a b : Ty) : (a.withSourcesOf b).Carries a b := by
  intro source
  rw [sources_withSourcesOf, NameSet.mem_insertAll, ← NameSet.mem_def, or_comm]

/-- A type without sources takes on those of two types. -/
theorem carries_of_sources_eq_empty (ht : t.sources = ∅) (a b : Ty) :
    ((t.withSourcesOf a).withSourcesOf b).Carries a b := by
  intro source
  have hnone : source ∉ t.sources := by
    rw [ht]
    exact List.not_mem_nil
  rw [carries_withSourcesOf, carries_withSourcesOf, or_iff_right hnone]

theorem carries_ofForm₂ (form : Form Ty) (token : Option Token) (a b : Ty) : (ofForm₂ form token a b).Carries a b :=
  carries_of_sources_eq_empty (t := .node form token ∅) rfl a b

/-- Plain types of a kind have no sources. -/
theorem sources_ofKind {k : Kind} (h : ofKind k = .ok t) : t.sources = ∅ := by
  unfold ofKind at h
  split at h
  · cases h
    rfl
  · cases h

end Ty

namespace Checker

variable {c : Checker} {a b ea eb s : Ty} {m : Merge}

/-- An expansion has the sources of the type. -/
theorem sources_expansion {t expanded : Ty} (hx : t.expansion? = some expanded) : expanded.sources = t.sources := by
  rcases expansion_cases hx with rfl | ⟨isTable, optional, p, -, rfl⟩ <;> rfl

theorem carries_of_expansions (hea : a.expansion? = some ea) (heb : b.expansion? = some eb) (h : s.Carries ea eb) :
    s.Carries a b := by
  rw [Ty.Carries, ← sources_expansion hea, ← sources_expansion heb]
  exact h

/-- Whichever of two types stands for both has the sources of both, and so has the bare kind of opaque types. -/
theorem carries_of_mutualBound (h : (mutualBound a b).outcome = .ok s) : s.Carries a b := by
  unfold mutualBound at h
  split at h
  · obtain ⟨t, ht, hpure⟩ := Run.bind_eq_ok_iff.1 h
    cases hpure
    exact Ty.carries_of_sources_eq_empty (Ty.sources_ofKind ht) a b
  · split at h
    · cases h
      exact Ty.carries_withSourcesOf a b
    · cases h
      exact (Ty.carries_withSourcesOf b a).symm

theorem carries_of_joinKinds (h : (joinKinds a b).outcome = .ok s) (hs : s.kind ≠ .error) : s.Carries a b := by
  unfold joinKinds at h
  dsimp only at h
  split at h
  · cases h
    exact absurd rfl hs
  · obtain ⟨t, ht, hpure⟩ := Run.bind_eq_ok_iff.1 h
    cases hpure
    exact Ty.carries_of_sources_eq_empty (Ty.sources_ofKind ht) a b

/-- Supertypes have the sources of both types. -/
theorem carries_of_joins (h : c.Joins a b s) (hs : s.kind ≠ .error) : s.Carries a b := by
  induction h with
  | equal | left => exact Ty.carries_withSourcesOf _ _
  | right => exact (Ty.carries_withSourcesOf _ _).symm
  | apart | closed => exact absurd rfl hs
  | shared => exact Ty.carries_ofForm₂ _ _ _ _
  | either _ _ _ hbound => exact carries_of_mutualBound hbound
  | expanded _ _ _ _ _ hea heb _ _ ih => exact carries_of_expansions hea heb (ih hs)
  | kinds _ _ _ _ hkinds => exact carries_of_joinKinds hkinds hs

/-- Unions have the sources of both types, conflicts inside or not. -/
theorem carries_of_merges (h : c.Merges a b m) (hm : m.type.kind ≠ .error) : m.type.Carries a b := by
  induction h with
  | nullRight | left => exact Ty.carries_withSourcesOf _ _
  | nullLeft | right => exact (Ty.carries_withSourcesOf _ _).symm
  | apart | closed => exact absurd rfl hm
  | fields => exact Ty.carries_ofForm₂ _ _ _ _
  | either _ _ _ hbound => exact carries_of_mutualBound hbound
  | expanded _ _ _ _ _ hea heb _ _ ih => exact carries_of_expansions hea heb (ih hm)
  | joined _ _ _ _ hjoins => exact carries_of_joins hjoins hm

/-- Intersections have the sources of both types. -/
theorem carries_of_overlaps (h : Overlaps a b s) (hs : s.kind ≠ .error) : s.Carries a b := by
  induction h with
  | equal | leaf => exact Ty.carries_withSourcesOf _ _
  | apart | closed => exact absurd rfl hs
  | shared => exact Ty.carries_ofForm₂ _ _ _ _
  | expanded _ _ _ hea heb _ _ ih => exact carries_of_expansions hea heb (ih hs)

/-- **Sources are neither lost nor made up**: supertype, union and intersection of two types, unless they are `error`,
have the sources of both and no others. They come out if look-ups end; the intersection looks nothing up. -/
theorem sources_carried (c : Checker) (ha : a.Sound) (hb : b.Sound) :
    (∀ s, (c.supertype a b).outcome = .ok s → s.kind ≠ .error → s.Carries a b) ∧
      (∀ m, (c.union a b).outcome = .ok m → m.type.kind ≠ .error → m.type.Carries a b) ∧
      (∀ r, (c.intersection a b).outcome = .ok r → r.kind ≠ .error → r.Carries a b) ∧
      (c.Answers → (c.supertype a b).Ends ∧ (c.union a b).Ends) ∧ (c.intersection a b).Ends := by
  obtain ⟨r, hr⟩ := exists_overlaps ha hb
  have hintersection : (c.intersection a b).outcome = .ok r := intersection_of_overlaps hr
  refine ⟨fun s hs => ?_, fun m hm => ?_, fun r' hr' => ?_, fun hc => ⟨?_, ?_⟩, r, hintersection⟩
  · exact carries_of_joins (joins_of_supertype ha hb hs)
  · exact carries_of_merges (merges_of_union ha hb hm)
  · rw [hintersection] at hr'
    cases hr'
    exact carries_of_overlaps hr
  · obtain ⟨s, hs⟩ := exists_joins hc ha hb
    exact ⟨s, supertype_of_joins hs⟩
  · obtain ⟨m, hm⟩ := hc.covers.exists_merges ha hb
    exact ⟨m, union_of_merges hm⟩

/-- A record of a number and a text, from two sources. -/
def ledgerRecord : Ty :=
  .node (.aggregate .record false
    [(Bytes.ofString "A", .ofForm (Ty.bareForm .number)), (Bytes.ofString "B", .ofForm (Ty.bareForm .string))]) none
    (.ofList [Bytes.ofString "x", Bytes.ofString "y"])

/-- A record of an amount and a flag, from one of these sources and another one. -/
def invoiceRecord : Ty :=
  .node (.aggregate .record true
    [(Bytes.ofString "A", .ofForm (Ty.bareForm .currency)), (Bytes.ofString "C", .ofForm (Ty.bareForm .boolean))])
    (some ⟨Bytes.ofString "t", none⟩) (.ofList [Bytes.ofString "y", Bytes.ofString "z"])

theorem sources_carried_records :
    ledgerRecord.Sound ∧ invoiceRecord.Sound ∧ ∃ s m r,
      (singleEntity.supertype ledgerRecord invoiceRecord).outcome = .ok s ∧ s.Carries ledgerRecord invoiceRecord ∧
        (singleEntity.union ledgerRecord invoiceRecord).outcome = .ok m ∧ m.type.Carries ledgerRecord invoiceRecord ∧
        (singleEntity.intersection ledgerRecord invoiceRecord).outcome = .ok r ∧
        r.Carries ledgerRecord invoiceRecord := by
  have ha : ledgerRecord.Sound := by decide +kernel
  have hb : invoiceRecord.Sound := by decide +kernel
  obtain ⟨hsupertype, hunion, hintersection, hends, r, hr⟩ := sources_carried singleEntity ha hb
  obtain ⟨⟨s, hs⟩, m, hm⟩ := hends answers_singleEntity
  have hskind := kind_of_joins_eager (joins_of_supertype ha hb hs) rfl rfl rfl
  obtain ⟨-, -, hmkind, -⟩ := exists_mergedFields (merges_of_union ha hb hm) rfl rfl rfl
  have hrkind : r.kind ≠ .error := by
    obtain ⟨r', hr'⟩ := exists_overlaps ha hb
    rw [intersection_of_overlaps hr'] at hr
    cases hr
    cases hr' with
    | equal => decide
    | shared _ _ hform =>
      cases hform
      intro hkind
      cases hkind
    | expanded _ hl | closed _ hl => cases hl
    | apart _ _ hk => exact absurd rfl hk
    | leaf _ _ h => cases h
  refine ⟨ha, hb, s, m, r, hs, hsupertype s hs ?_, hm, hunion m hm ?_, hr, hintersection r hr hrkind⟩
  · rw [hskind]
    decide
  · rw [hmkind]
    decide

end Checker

end FormulaTypes
