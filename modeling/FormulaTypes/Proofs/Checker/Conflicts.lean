import FormulaTypes.Proofs.Checker.Merges
import Mathlib.Data.List.Perm.Subperm

/-!
# What unions keep, and where they are in conflict

The union of two eager aggregates of one kind has the fields of both. A field that only one of them has is kept as it
is; one that both have is merged, and is in conflict if it becomes `error` without having been `error` before. Merges
inside of aggregates report their own conflicts, so that a union is in conflict exactly if a path of fields, through
eager aggregates of one kind on both sides, leads to such a field (`ConflictAt`, `clean_eq_false_iff`).
-/

namespace FormulaTypes

/-- Maps in order have no more names than those that have all their names. -/
theorem NameMap.length_names_le {α β : Type} {m : NameMap α} {m' : NameMap β} (h : m.Ordered)
    (hsub : ∀ name ∈ m.names, name ∈ m'.names) : m.names.length ≤ m'.names.length := by
  have hnodup : m.names.Nodup := by
    refine List.Pairwise.imp ?_ h
    rintro name _ hlt rfl
    rw [Bytes.precedes_self] at hlt
    cases hlt
  exact (hnodup.subperm hsub).length_le

namespace Checker

variable {c : Checker} {a b u : Ty} {m : Merge}

/-- A path of fields leads to a conflict between two types in what they were merged to. -/
inductive ConflictAt : Ty → Ty → Ty → FieldPath → Prop
  /-- The merge is `error`, though neither of the types was. -/
  | here {a b u : Ty} (hu : u.kind = .error) (ha : a.kind ≠ .error) (hb : b.kind ≠ .error) : ConflictAt a b u []
  /-- There is a conflict in a field of two eager aggregates of one kind. -/
  | inside {a b u fa fb fu : Ty} {name : Bytes} {rest : FieldPath} (ha : a.isEager = true) (hb : b.isEager = true)
      (hk : a.kind = b.kind) (hfa : a.field? name = some fa) (hfb : b.field? name = some fb)
      (hfu : u.field? name = some fu) (h : ConflictAt fa fb fu rest) : ConflictAt a b u (name :: rest)

/-! ## Fields that are not both eager aggregates -/

/-- Such fields are in conflict if they are merged to `error` and neither was `error`. -/
theorem clean_eq_false_iff_of_mergesLeaves (h : c.MergesLeaves a b m) :
    m.clean = false ↔ m.type.kind = .error ∧ a.kind ≠ .error ∧ b.kind ≠ .error := by
  cases h with
  | nullLeft | entityRight => exact iff_of_false Bool.false_ne_true.symm fun h => h.2.2 h.1
  | nullRight | entityLeft => exact iff_of_false Bool.false_ne_true.symm fun h => h.2.1 h.1
  | joined => simp [and_assoc]

/-- There is nothing inside of them that could be in conflict. -/
theorem conflictAt_iff_of_not_eager (h : (a.isEager && b.isEager) = false) :
    (∃ path, ConflictAt a b u path) ↔ u.kind = .error ∧ a.kind ≠ .error ∧ b.kind ≠ .error := by
  constructor
  · rintro ⟨path, hpath⟩
    cases hpath with
    | here hu ha hb => exact ⟨hu, ha, hb⟩
    | inside ha hb =>
      rw [ha, hb] at h
      cases h
  · rintro ⟨hu, ha, hb⟩
    exact ⟨[], .here hu ha hb⟩

/-! ## Eager aggregates -/

theorem mem_fieldNames_iff {t : Ty} (h : t.isEager = true) (name : Bytes) :
    name ∈ t.fieldNames ↔ (t.field? name).isSome = true := by
  rw [Ty.fieldNames_of_isEager h, NameMap.mem_names_iff, Ty.field?_of_isEager h]
  rfl

/-- Eager aggregates of one kind are merged to one of that kind, of the fields of both. -/
theorem exists_mergedFields (h : c.Merges a b m) (hea : a.isEager = true) (heb : b.isEager = true)
    (hk : a.kind = b.kind) :
    ∃ merge : Bytes × Ty → Merge, m.type.isEager = true ∧ m.type.kind = a.kind ∧
      m.type.fields = a.mergedFields b merge ∧ ∀ e ∈ b.fields, c.MergesAt a e (merge e) := by
  cases h with
  | nullLeft hnull => exact absurd hnull (Ty.kind_of_isEager hea).1
  | nullRight _ _ hnull => exact absurd hnull (Ty.kind_of_isEager heb).1
  | apart _ _ hne => exact absurd hk hne
  | fields _ hform _ merge hnew hleaves hnested =>
    exact ⟨merge, Ty.isEager_iff.2 ⟨_, _, _, rfl⟩, (Ty.kind_of_form hform).symm, rfl,
      fun e he => ⟨hnew e he, hleaves e he, hnested e he⟩⟩
  | either hu | left hu | right hu | expanded hu | closed hu | joined hu =>
    exact absurd (by rw [hea, heb]; rfl) hu.uneager

/-- What the aggregate of both has under a name: the merge of what both have there, or what one of them has. -/
theorem field?_eq_of_mergedFields {merge : Bytes × Ty → Merge} (hb : NameMap.Ordered b.fields)
    (hea : a.isEager = true) (heb : b.isEager = true) (heu : u.isEager = true)
    (hfields : u.fields = a.mergedFields b merge) (name : Bytes) :
    u.field? name = ((b.field? name).map fun t => (merge (name, t)).type).or (a.field? name) := by
  rw [Ty.field?_of_isEager hea, Ty.field?_of_isEager heb, Ty.field?_of_isEager heu, hfields, Ty.find?_mergedFields hb]

/-- Eager aggregates of different kinds are in conflict. -/
theorem conflictAt_of_apart (h : c.Merges a b m) (hea : a.isEager = true) (heb : b.isEager = true)
    (hk : a.kind ≠ b.kind) : ConflictAt a b m.type [] := by
  have hm := union_of_merges (Merges.apart (c := c) hea heb hk)
  rw [union_of_merges h] at hm
  cases hm
  exact .here rfl (Ty.kind_ne_of_isAggregate (Ty.of_isEager hea).1 rfl)
    (Ty.kind_ne_of_isAggregate (Ty.of_isEager heb).1 rfl)

/-- Aggregates are in conflict where fields of theirs are. -/
theorem conflictAt_cons {fa fb : Ty} {name : Bytes} {rest : FieldPath} (h : c.Merges a b m)
    (hb : NameMap.Ordered b.fields) (hea : a.isEager = true) (heb : b.isEager = true) (hk : a.kind = b.kind)
    (hfa : a.field? name = some fa) (hfb : b.field? name = some fb) (hboth : (fa.isEager && fb.isEager) = true)
    (hfields : ∀ m', c.Merges fa fb m' → ConflictAt fa fb m'.type rest) : ConflictAt a b m.type (name :: rest) := by
  obtain ⟨merge, heu, -, hmerged, hmerge⟩ := exists_mergedFields h hea heb hk
  have hfu : m.type.field? name = some (merge (name, fb)).type := by
    rw [field?_eq_of_mergedFields hb hea heb heu hmerged, hfb]
    rfl
  refine .inside hea heb hk hfa hfb hfu (hfields _ ?_)
  rw [Ty.field?_of_isEager hea] at hfa
  rw [Ty.field?_of_isEager heb] at hfb
  exact (hmerge _ (NameMap.mem_of_find? hfb)).nested fa hfa hboth

/-- If the merges of the fields that both aggregates have tell of their conflicts, so does that of the aggregates. -/
theorem all_clean_eq_false_iff {merge : Bytes × Ty → Merge} (hb : NameMap.Ordered b.fields) (hea : a.isEager = true)
    (heb : b.isEager = true) (heu : u.isEager = true) (hk : a.kind = b.kind)
    (hfields : u.fields = a.mergedFields b merge)
    (hnew : ∀ e ∈ b.fields, NameMap.find? a.fields e.1 = none → merge e = ⟨e.2, true⟩)
    (hshared : ∀ e ∈ b.fields, ∀ f, NameMap.find? a.fields e.1 = some f →
      ((merge e).clean = false ↔ ∃ path, ConflictAt f e.2 (merge e).type path)) :
    (b.fields.all fun e => (merge e).clean) = false ↔ ∃ path, ConflictAt a b u path := by
  have hfield := field?_eq_of_mergedFields hb hea heb heu hfields
  rw [List.all_eq_false]
  constructor
  · rintro ⟨e, he, hclean⟩
    rw [Bool.not_eq_true] at hclean
    have hfb : b.field? e.1 = some e.2 := by rw [Ty.field?_of_isEager heb, NameMap.find?_of_mem hb he]
    cases hfa : NameMap.find? a.fields e.1 with
    | none =>
      -- a field of one side is never in conflict
      rw [hnew e he hfa] at hclean
      cases hclean
    | some fa =>
      obtain ⟨rest, hrest⟩ := (hshared e he fa hfa).1 hclean
      refine ⟨e.1 :: rest, .inside hea heb hk (by rw [Ty.field?_of_isEager hea, hfa]) hfb ?_ hrest⟩
      rw [hfield, hfb]
      rfl
  · rintro ⟨path, hpath⟩
    cases hpath with
    | here hu => exact absurd hu (Ty.kind_ne_of_isAggregate (Ty.of_isEager heu).1 rfl)
    | @inside _ _ _ fa fb fu name rest _ _ _ hfa hfb hfu hrest =>
      rw [hfield, hfb] at hfu
      cases hfu
      rw [Ty.field?_of_isEager hea] at hfa
      rw [Ty.field?_of_isEager heb] at hfb
      have he := NameMap.mem_of_find? hfb
      refine ⟨(name, fb), he, ?_⟩
      rw [Bool.not_eq_true]
      exact (hshared _ he fa hfa).2 ⟨rest, hrest⟩

/-- The merge of two eager aggregates is in conflict if a path of fields leads to one. -/
theorem clean_eq_false_iff (h : c.Merges a b m) (ha : a.Sound) (hb : b.Sound) (hea : a.isEager = true)
    (heb : b.isEager = true) : m.clean = false ↔ ∃ path, ConflictAt a b m.type path := by
  induction h with
  | nullLeft hnull => exact absurd hnull (Ty.kind_of_isEager hea).1
  | nullRight _ _ hnull => exact absurd hnull (Ty.kind_of_isEager heb).1
  | apart _ _ hk => exact iff_of_true rfl ⟨[], conflictAt_of_apart (.apart (c := c) hea heb hk) hea heb hk⟩
  | fields _ _ hk merge hnew hleaves _ ih =>
    -- fields that are not both eager end a path, and all others lead it on
    refine all_clean_eq_false_iff hb.ordered_fields hea heb (Ty.isEager_iff.2 ⟨_, _, _, rfl⟩) hk rfl hnew ?_
    intro e he f hf
    cases hboth : f.isEager && e.2.isEager with
    | false =>
      rw [conflictAt_iff_of_not_eager hboth]
      exact clean_eq_false_iff_of_mergesLeaves (hleaves e he f hf hboth)
    | true =>
      obtain ⟨hef, hee⟩ := Bool.and_eq_true_iff.1 hboth
      exact ih e he f hf hboth (ha.part (Ty.mem_parts_of_mem_fields (NameMap.mem_of_find? hf)))
        (hb.part (Ty.mem_parts_of_mem_fields he)) hef hee
  | either hu | left hu | right hu | expanded hu | closed hu | joined hu =>
    exact absurd (by rw [hea, heb]; rfl) hu.uneager

/-- **Unions lose no field and tell of every conflict.** The union of two eager aggregates of one kind is there if
look-ups end. It has the fields of both, with those that only one of them has as they were, and it is in conflict
exactly if a path of fields leads to one that is `error` and was not `error` in either aggregate. -/
theorem union_keeps_fields (ha : a.Sound) (hb : b.Sound) (hea : a.isEager = true) (heb : b.isEager = true)
    (hk : a.kind = b.kind) :
    (c.Answers → (c.union a b).Ends) ∧ ∀ m, (c.union a b).outcome = .ok m →
      (∀ name, name ∈ m.type.fieldNames ↔ name ∈ a.fieldNames ∨ name ∈ b.fieldNames) ∧
      max a.fieldNames.length b.fieldNames.length ≤ m.type.fieldNames.length ∧
      (∀ name t, a.field? name = some t → b.field? name = none → m.type.field? name = some t) ∧
      (∀ name t, a.field? name = none → b.field? name = some t → m.type.field? name = some t) ∧
      (m.clean = false ↔ ∃ path, path ≠ [] ∧ ConflictAt a b m.type path) := by
  refine ⟨fun hc => ?_, fun m hm => ?_⟩
  · obtain ⟨m, hm⟩ := hc.covers.exists_merges ha hb
    exact ⟨m, union_of_merges hm⟩
  have hmerges := merges_of_union ha hb hm
  obtain ⟨merge, heu, -, hfields, hmerge⟩ := exists_mergedFields hmerges hea heb hk
  have hfield := field?_eq_of_mergedFields hb.ordered_fields hea heb heu hfields
  have hnames : ∀ name, name ∈ m.type.fieldNames ↔ name ∈ a.fieldNames ∨ name ∈ b.fieldNames := by
    intro name
    rw [mem_fieldNames_iff heu, mem_fieldNames_iff hea, mem_fieldNames_iff heb, hfield, Option.isSome_or,
      Option.isSome_map, Bool.or_eq_true, or_comm]
  refine ⟨hnames, ?_, ?_, ?_, ?_⟩
  · simp only [Ty.fieldNames_of_isEager hea, Ty.fieldNames_of_isEager heb, Ty.fieldNames_of_isEager heu] at hnames ⊢
    exact Nat.max_le.2 ⟨NameMap.length_names_le ha.ordered_fields fun name h => (hnames name).2 (.inl h),
      NameMap.length_names_le hb.ordered_fields fun name h => (hnames name).2 (.inr h)⟩
  · intro name t hfa hfb
    rw [hfield, hfa, hfb]
    rfl
  · intro name t hfa hfb
    rw [hfield, hfa, hfb]
    rw [Ty.field?_of_isEager hea] at hfa
    rw [Ty.field?_of_isEager heb] at hfb
    rw [Option.map_some, (hmerge _ (NameMap.mem_of_find? hfb)).new hfa]
    rfl
  · rw [clean_eq_false_iff hmerges ha hb hea heb]
    refine exists_congr fun path => iff_and_self.2 ?_
    rintro hpath rfl
    cases hpath with
    | here hu => exact absurd hu (Ty.kind_ne_of_isAggregate (Ty.of_isEager heu).1 rfl)

/-- A record in a record, with a text beside it. -/
def recordInRecord : Ty :=
  .ofForm (.aggregate .record false
    [(Bytes.ofString "A", .ofForm (.aggregate .record false
       [(Bytes.ofString "X", .ofForm (.aggregate .record false []))])),
     (Bytes.ofString "B", .ofForm (Ty.bareForm .string))])

/-- A record that has a table in the place of the innermost record, and a flag beside it. -/
def tableInRecord : Ty :=
  .ofForm (.aggregate .record true
    [(Bytes.ofString "A", .ofForm (.aggregate .record false
       [(Bytes.ofString "X", .ofForm (.aggregate .table false []))])),
     (Bytes.ofString "C", .ofForm (Ty.bareForm .boolean))])

theorem union_keeps_fields_recordInRecord :
    recordInRecord.Sound ∧ tableInRecord.Sound ∧ recordInRecord.isEager = true ∧ tableInRecord.isEager = true ∧
      recordInRecord.kind = tableInRecord.kind ∧
      ∃ m, (Checker.union ⟨Rules.standard, none, false⟩ recordInRecord tableInRecord).outcome = .ok m ∧
        Bytes.ofString "C" ∈ m.type.fieldNames ∧
        m.type.field? (Bytes.ofString "B") = some (.ofForm (Ty.bareForm .string)) ∧
        m.type.field? (Bytes.ofString "C") = some (.ofForm (Ty.bareForm .boolean)) ∧ m.clean = false := by
  have ha : recordInRecord.Sound := by decide +kernel
  have hb : tableInRecord.Sound := by decide +kernel
  obtain ⟨hends, hunion⟩ := union_keeps_fields (c := ⟨Rules.standard, none, false⟩) ha hb rfl rfl rfl
  obtain ⟨m, hm⟩ := hends fun look token hlook => by cases hlook
  obtain ⟨hnames, -, hleft, hright, hclean⟩ := hunion m hm
  refine ⟨ha, hb, rfl, rfl, rfl, m, hm, (hnames _).2 (.inr (by decide)), hleft _ _ rfl rfl, hright _ _ rfl rfl, ?_⟩
  refine hclean.2 ⟨[Bytes.ofString "A", Bytes.ofString "X"], List.cons_ne_nil _ _, ?_⟩
  refine conflictAt_cons (merges_of_union ha hb hm) hb.ordered_fields rfl rfl rfl rfl rfl rfl fun m' hm' => ?_
  refine conflictAt_cons hm' (by decide) rfl rfl rfl rfl rfl rfl fun m'' hm'' => ?_
  exact conflictAt_of_apart hm'' rfl rfl (by decide)

end Checker

end FormulaTypes
