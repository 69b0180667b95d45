import FormulaTypes.Proofs.Checker.CoercionSound

/-!
# What a value is given to satisfy a destination

The type that a value is given before a coercion keeps the fields that the destination does not ask for. `c.Narrows f
src dst t` has one rule for each way in which it comes about (`coercionSubtype_of_narrows`,
`narrows_of_coercionSubtype`).

The type also keeps the kind of the source. Hence the destination accepts it exactly if nowhere along the fields that
are converted one by one a file or large image stands where a record is asked for (`accepts_coercionSubtype_iff`). A
file that is to become a record stays a file (`refuses_coercionSubtype_file`).
-/

namespace FormulaTypes

namespace Checker

variable {c : Checker} {f : CoercionFlags} {src dst eager wanted shaped t : Ty} {r : Coercion}

/-! ## The rules -/

/-- The fields of an aggregate, with those that are asked for replaced. -/
def narrowedFields (eager wanted : Ty) (sub : Bytes × Ty → Ty) : NameMap Ty :=
  NameMap.insertAll eager.fields (wanted.fields.filterMap (Run.kept (eager.answer sub)))

/-- How a checker narrows a source to satisfy a destination. -/
inductive Narrows (c : Checker) : CoercionFlags → Ty → Ty → Ty → Prop
  /-- What is accepted stays as it is. -/
  | accepted {f : CoercionFlags} {src dst : Ty} (h : c.Fits dst src) : Narrows c f src dst src
  /-- Types without fields, and aggregates that may not be expanded, become what they are converted to. -/
  | converted {f : CoercionFlags} {src dst : Ty} {r : Coercion} (hr : c.Refuses dst src)
      (h : c.Converts f src dst r)
      (hs : src.isAggregate = false ∨ dst.isAggregate = false ∨ src.expansion? = none) : Narrows c f src dst r.type
  /-- Aggregates keep their shape, and the fields that are not asked for. -/
  | kept {f : CoercionFlags} {src dst eager wanted shaped : Ty} {r : Coercion} (hr : c.Refuses dst src)
      (h : c.Converts f src dst r) (hs : src.isAggregate = true) (hd : dst.isAggregate = true)
      (he : src.expansion? = some eager) (hx : dst.expansion? = some wanted)
      (hshape : (c.reshape f eager wanted).outcome = .ok (some shaped)) {shape : Shape} {optional : Bool}
      {fields : List (Bytes × Ty)} (hform : shaped.form = .aggregate shape optional fields) (sub : Bytes × Ty → Ty)
      (hsub : ∀ e ∈ wanted.fields, ∀ actual, eager.field? e.1 = some actual → Narrows c f.nested actual e.2 (sub e)) :
      Narrows c f src dst
        ((Ty.ofForm (.aggregate shape false (narrowedFields eager wanted sub))).withSourcesOf src)

/-! ## The rules give what is computed -/

/-- What is narrowed field by field is the aggregate of what its fields become. -/
theorem coercionSubtype_of_kept (hr : c.Refuses dst src) (h : c.Converts f src dst r) (hs : src.isAggregate = true)
    (hd : dst.isAggregate = true) (he : src.expansion? = some eager) (hx : dst.expansion? = some wanted)
    (hshape : (c.reshape f eager wanted).outcome = .ok (some shaped)) {shape : Shape} {optional : Bool}
    {fields : List (Bytes × Ty)} (hform : shaped.form = .aggregate shape optional fields) {sub : Bytes × Ty → Ty}
    (hsub : ∀ e ∈ wanted.fields, ∀ actual, eager.field? e.1 = some actual →
      (c.coercionSubtype f.nested actual e.2).outcome = .ok (some (sub e))) :
    (c.coercionSubtype f src dst).outcome =
      .ok (some ((Ty.ofForm (.aggregate shape false (narrowedFields eager wanted sub))).withSourcesOf src)) := by
  rw [coercionSubtype, Run.bind_of_ok hr, if_neg (by decide), Run.bind_of_ok (coerce_of_converts h)]
  dsimp only
  rw [if_neg (by simp [hs, hd]), Run.bind_of_ok (outcome_expand _ _), he]
  dsimp only
  rw [outcome_expandLazy, hx]
  dsimp only
  rw [Run.bind_of_ok hshape]
  dsimp only
  rw [Run.bind_of_ok (Run.collectAlong_eq_ok fun e he' => ?_), ofKindFields_eq hform,
    Run.bind_of_ok (Run.outcome_lift _)]
  · rfl
  · rw [Ty.answer, ← find?_fields_expansion he]
    split
    · next actual hactual =>
      rw [hactual, hsub e he' actual (by rw [← find?_fields_expansion he, hactual])]
      rfl
    · next hnone =>
      rw [hnone]
      rfl

/-- What the rules give is what a value is given. -/
theorem coercionSubtype_of_narrows (h : c.Narrows f src dst t) :
    (c.coercionSubtype f src dst).outcome = .ok (some t) := by
  induction h with
  | accepted h =>
    rw [coercionSubtype, Run.bind_of_ok (accepts_eq_true_iff.2 h)]
    rfl
  | @converted f src dst r hr h hs =>
    rw [coercionSubtype, Run.bind_of_ok hr, if_neg (by decide), Run.bind_of_ok (coerce_of_converts h)]
    dsimp only
    split
    · rfl
    · next hagg =>
      simp only [Bool.or_eq_true, Bool.not_eq_true', not_or, Bool.not_eq_false] at hagg
      have hnone : src.expansion? = none := by simpa [hagg] using hs
      rw [Run.bind_of_ok (outcome_expand _ _), hnone]
      rfl
  | kept hr h hs hd he hx hshape hform sub _ ih => exact coercionSubtype_of_kept hr h hs hd he hx hshape hform ih

/-! ## What is computed comes from the rules -/

/-- Aggregates that are not accepted are converted to the fields of an eager aggregate. -/
theorem converts_aggregate (h : c.Converts f src dst r) (hr : c.Refuses dst src) (hs : src.isAggregate = true)
    (hd : dst.isAggregate = true) :
    ∃ wanted shaped, dst.expansion? = some wanted ∧ wanted.isEager = true ∧
      (c.reshape f src wanted).outcome = .ok (some shaped) ∧
      ¬ ((wanted.kind = .file ∨ wanted.kind = .largeImage) ∧ shaped.kind ≠ wanted.kind) ∧
      ∀ e ∈ wanted.fields, (∃ actual r, src.field? e.1 = some actual ∧ c.Converts f.nested actual e.2 r) ∨
        (src.field? e.1 = none ∧ wanted.optional = true) := by
  have hne : ∀ k : Kind, k.isAggregate = false → src.kind ≠ k := fun _ => Ty.kind_ne_of_isAggregate hs
  cases h with
  | accepted _ h => exact absurd h hr.not_fits
  | absent _ hs => exact absurd hs (not_or.2 ⟨hne _ rfl, hne _ rfl⟩)
  | restricted _ hs => exact absurd hs (hne _ rfl)
  | untyped _ hs => exact absurd hs (hne _ rfl)
  | plain _ _ _ _ hd' =>
    rw [hd] at hd'
    cases hd'
  | @fields _ _ _ wanted shaped _ _ _ _ hx shape optional fields hform hshape hkind conv hfound hmissing =>
    refine ⟨wanted, shaped, hx, Ty.isEager_iff.2 ⟨_, _, _, hform⟩, hshape, hkind, ?_⟩
    rw [Ty.fields, Ty.optional, hform]
    intro e he
    cases hactual : src.field? e.1 with
    | some actual => exact .inl ⟨actual, conv e, rfl, hfound e he actual hactual⟩
    | none => exact .inr ⟨rfl, hmissing e he hactual⟩

/-- If a source may be shaped like a destination, so may its expansion. -/
theorem reshape_expansion_ne_none (he : src.expansion? = some eager)
    (h : (c.reshape f src wanted).outcome = .ok (some shaped)) : (c.reshape f eager wanted).outcome ≠ .ok none := by
  have htable := isTable_expansion he
  rw [reshape]
  rcases reshape_cases h with ⟨hs, -⟩ | ⟨hs, hw, ha, ht, -⟩
  · rw [if_pos (htable.trans hs)]
    simp
  · rw [if_neg (by simp [htable, hs, hw]), if_pos (by simp [hw, ha, ht])]
    intro hnone
    obtain ⟨table, -, hpure⟩ := Run.bind_eq_ok_iff.1 hnone
    cases hpure

/-- A source stays as it is, or becomes nothing, or what it is converted to, or an aggregate of what its fields
become. -/
theorem coercionSubtype_cases {answer : Option Ty} (h : (c.coercionSubtype f src dst).outcome = .ok answer) :
    (c.Fits dst src ∧ answer = some src) ∨ ((c.coerce f src dst).outcome = .ok none ∧ answer = none) ∨
      ∃ r, c.Refuses dst src ∧ c.Converts f src dst r ∧ answer.isSome = true ∧
        ((answer = some r.type ∧ (src.isAggregate = false ∨ dst.isAggregate = false ∨ src.expansion? = none)) ∨
          ∃ eager wanted shaped, src.isAggregate = true ∧ dst.isAggregate = true ∧ src.expansion? = some eager ∧
            dst.expansion? = some wanted ∧ (c.reshape f eager wanted).outcome = .ok (some shaped) ∧
            (∃ shape optional fields, shaped.form = .aggregate shape optional fields) ∧
            ∀ e ∈ wanted.fields, ∀ actual, eager.field? e.1 = some actual →
              (c.coercionSubtype f.nested actual e.2).Ends) := by
  rw [coercionSubtype, Run.bind_eq_ok_iff] at h
  obtain ⟨_ | _, haccepts, h⟩ := h
  case true =>
    cases h
    exact .inl ⟨accepts_eq_true_iff.1 haccepts, rfl⟩
  rw [if_neg (by decide)] at h
  obtain ⟨_ | r, hcoerce, h⟩ := Run.bind_eq_ok_iff.1 h
  · cases h
    exact .inr (.inl ⟨hcoerce, rfl⟩)
  have hconverts := converts_of_coerce hcoerce
  refine .inr (.inr ⟨r, haccepts, hconverts, ?_⟩)
  dsimp only at h
  split at h
  · next hagg =>
    cases h
    simp only [Bool.or_eq_true, Bool.not_eq_true'] at hagg
    exact ⟨rfl, .inl ⟨rfl, hagg.imp_right .inl⟩⟩
  next hagg =>
  simp only [Bool.or_eq_true, Bool.not_eq_true', not_or, Bool.not_eq_false] at hagg
  obtain ⟨hs, hd⟩ := hagg
  rw [Run.bind_of_ok (outcome_expand _ _)] at h
  cases he : src.expansion? with
  | none =>
    rw [he] at h
    cases h
    exact ⟨rfl, .inl ⟨rfl, .inr (.inr rfl)⟩⟩
  | some eager =>
    obtain ⟨wanted, shaped', hx, -, hshaped', -⟩ := converts_aggregate hconverts haccepts hs hd
    rw [he] at h
    dsimp only at h
    rw [outcome_expandLazy, hx] at h
    obtain ⟨_ | shaped, hshape, h⟩ := Run.bind_eq_ok_iff.1 h
    · exact absurd hshape (reshape_expansion_ne_none he hshaped')
    obtain ⟨found, hfound, h⟩ := Run.bind_eq_ok_iff.1 h
    obtain ⟨made, hmade, h⟩ := Run.bind_eq_ok_iff.1 h
    cases h
    refine ⟨rfl, .inr ⟨eager, wanted, shaped, hs, hd, rfl, hx, hshape, exists_form_of_ofKindFields hmade, ?_⟩⟩
    intro e he' actual hactual
    have hends := Run.ends_of_collectAlong hfound e he'
    rw [← find?_fields_expansion he] at hactual
    split at hends
    · next actual' hactual' =>
      rw [hactual] at hactual'
      cases hactual'
      exact hends
    · next hnone =>
      rw [hactual] at hnone
      cases hnone

/-- What can be converted is given some type, if the run ends. -/
theorem exists_coercionSubtype (h : c.Converts f src dst r) (hends : (c.coercionSubtype f src dst).Ends) :
    ∃ t, (c.coercionSubtype f src dst).outcome = .ok (some t) := by
  obtain ⟨answer, hanswer⟩ := hends
  rcases coercionSubtype_cases hanswer with ⟨-, rfl⟩ | ⟨hnone, -⟩ | ⟨r, -, -, hsome, -⟩
  · exact ⟨src, hanswer⟩
  · rw [coerce_of_converts h] at hnone
    cases hnone
  · obtain ⟨t, rfl⟩ := Option.isSome_iff_exists.1 hsome
    exact ⟨t, hanswer⟩

/-- What a value is given comes from the rules. -/
theorem narrows_of_coercionSubtype (hs : src.InOrder) (h : (c.coercionSubtype f src dst).outcome = .ok (some t)) :
    c.Narrows f src dst t := by
  induction src using Ty.weightInduction generalizing f dst t with
  | step src ih =>
    rcases coercionSubtype_cases h with ⟨hfits, hsame⟩ | ⟨-, hnone⟩ | ⟨r, hrefused, hconverts, -, hcase⟩
    · cases hsame
      exact .accepted hfits
    · cases hnone
    rcases hcase with ⟨hsame, hcase⟩ | ⟨eager, wanted, shaped, hsa, hda, he, hx, hshape, ⟨_, _, _, hform⟩, hends⟩
    · cases hsame
      exact .converted hrefused hconverts hcase
    obtain ⟨wanted', -, hx', -, -, -, hfields⟩ := converts_aggregate hconverts hrefused hsa hda
    rw [hx] at hx'
    cases hx'
    have hsub : ∀ e : Bytes × Ty, ∃ t, e ∈ wanted.fields → ∀ actual, eager.field? e.1 = some actual →
        (c.coercionSubtype f.nested actual e.2).outcome = .ok (some t) := by
      intro e
      by_cases he' : e ∈ wanted.fields
      · rcases hfields e he' with ⟨actual, r', hactual, hr'⟩ | ⟨hnone, -⟩
        · have hactual' : eager.field? e.1 = some actual := by
            rw [field?_expansion (Ty.Everywhere.here hs) he, hactual]
          obtain ⟨t', ht'⟩ := exists_coercionSubtype hr' (hends e he' actual hactual')
          refine ⟨t', fun _ actual'' hactual'' => ?_⟩
          rw [hactual'] at hactual''
          cases hactual''
          exact ht'
        · refine ⟨src, fun _ actual hactual => ?_⟩
          rw [field?_expansion (Ty.Everywhere.here hs) he, hnone] at hactual
          cases hactual
      · exact ⟨src, fun he'' => absurd he'' he'⟩
    choose sub hsub using hsub
    rw [coercionSubtype_of_kept hrefused hconverts hsa hda he hx hshape hform hsub] at h
    cases h
    refine .kept hrefused hconverts hsa hda he hx hshape hform sub fun e he' actual hactual => ?_
    have hactual' := hactual
    rw [field?_expansion (Ty.Everywhere.here hs) he] at hactual'
    exact ih actual (Ty.weight_lt_of_field? hactual') (Ty.Everywhere.field hs hactual') (hsub e he' actual hactual)

/-! ## Where a file stands for a record -/

/-- A file or large image stands where the destination asks for a record, at the top or at a field that is converted by
itself: none of the aggregates above it is accepted, and all of the source are expanded. -/
inductive Clashes (c : Checker) : Ty → Ty → Prop
  | here {src dst : Ty} (hs : src.kind = .file ∨ src.kind = .largeImage)
      (hd : dst.kind = .record ∨ dst.kind = .lazyRecord) : Clashes c src dst
  | inside {src dst eager wanted actual : Ty} {e : Bytes × Ty} (hr : c.Refuses dst src) (hs : src.isAggregate = true)
      (hd : dst.isAggregate = true) (he : src.expansion? = some eager) (hx : dst.expansion? = some wanted)
      (hasked : e ∈ wanted.fields) (hactual : eager.field? e.1 = some actual) (h : Clashes c actual e.2) :
      Clashes c src dst

theorem Clashes.isAggregate (h : c.Clashes src dst) : src.isAggregate = true ∧ dst.isAggregate = true := by
  cases h with
  | here hs hd =>
    rw [Ty.isAggregate, Ty.isAggregate]
    rcases hs with hs | hs <;> rcases hd with hd | hd <;> rw [hs, hd] <;> exact ⟨rfl, rfl⟩
  | inside _ hs hd => exact ⟨hs, hd⟩

/-- Files and large images are not lazy. -/
theorem isLazy_of_kind_file (h : t.kind = .file ∨ t.kind = .largeImage) : t.isLazy = false := by
  rcases h with h | h <;> rw [Ty.isLazy, h] <;> rfl

/-- Eager tables are of one kind. -/
theorem kind_eq_table (he : t.isEager = true) (ht : t.isTable = true) : t.kind = .table := by
  simp only [Ty.isTable, Bool.or_eq_true, decide_eq_true_eq] at ht
  refine ht.resolve_right fun hk => ?_
  rw [Ty.isEager, hk] at he
  cases he

/-- Eager aggregates that are no tables are records, files or large images. -/
theorem kind_of_not_table (he : t.isEager = true) (ht : t.isTable = false) :
    t.kind = .record ∨ t.kind = .file ∨ t.kind = .largeImage := by
  obtain ⟨shape, optional, fields, hform⟩ := Ty.isEager_iff.1 he
  rw [Ty.isTable, Ty.kind_of_form hform] at ht
  rw [Ty.kind_of_form hform]
  cases shape with
  | record => exact .inl rfl
  | table => cases ht
  | file => exact .inr (.inl rfl)
  | largeImage => exact .inr (.inr rfl)

/-- Only records are expanded to records. -/
theorem kind_of_expansion_record (hx : t.expansion? = some wanted) (hk : wanted.kind = .record) :
    t.kind = .record ∨ t.kind = .lazyRecord := by
  rcases expansion_cases hx with rfl | ⟨isTable, optional, p, hform, rfl⟩
  · exact .inl hk
  · rw [Ty.kind_of_form hform]
    cases isTable with
    | false => exact .inr rfl
    | true => cases hk

/-- Files and large images are not expanded from anything else. -/
theorem expansion_of_kind_file (hx : t.expansion? = some eager) (hk : eager.kind = .file ∨ eager.kind = .largeImage) :
    eager = t := by
  rcases expansion_cases hx with rfl | ⟨isTable, optional, p, -, rfl⟩
  · rfl
  · cases isTable <;> rcases hk with hk | hk <;> cases hk

/-- A narrowed aggregate is of the kind that is asked for, unless a file or large image stands for a record. -/
theorem kind_narrowed {shaped' : Ty} (he : src.expansion? = some eager) (hx : dst.expansion? = some wanted)
    (hw : wanted.isEager = true) (hshape : (c.reshape f eager wanted).outcome = .ok (some shaped))
    (hs : shaped.isEager = true) (hshape' : (c.reshape f src wanted).outcome = .ok (some shaped'))
    (hkind : ¬ ((wanted.kind = .file ∨ wanted.kind = .largeImage) ∧ shaped'.kind ≠ wanted.kind))
    (hclash : ¬ c.Clashes src dst) : wanted.kind = shaped.kind := by
  rcases reshape_cases hshape with ⟨htable, rfl⟩ | ⟨-, hwt, -, -, hst, -⟩
  · cases hwt : wanted.isTable with
    | true => rw [kind_eq_table hw hwt, kind_eq_table hs (htable.trans hwt)]
    | false =>
      rcases kind_of_not_table hw hwt with hwk | hwk
      · rcases kind_of_not_table hs (htable.trans hwt) with hk | hk
        · rw [hwk, hk]
        · have hsame := expansion_of_kind_file he hk
          exact absurd (.here (hsame ▸ hk) (kind_of_expansion_record hx hwk)) hclash
      · have hsrc : src.kind = wanted.kind := by
          rcases reshape_cases hshape' with ⟨-, rfl⟩ | ⟨-, hwt', -⟩
          · exact not_not.1 (not_and.1 hkind hwk)
          · rw [hwt] at hwt'
            cases hwt'
        rw [expansion_of_not_lazy (isLazy_of_kind_file (hsrc ▸ hwk)) he, hsrc]
  · rw [kind_eq_table hw hwt, kind_eq_table hs hst]

/-- A narrowed aggregate is of the kind of its shape. -/
theorem kind_of_shaped {shape : Shape} {optional : Bool} {fields : List (Bytes × Ty)}
    (hform : shaped.form = .aggregate shape optional fields) (fields' : List (Bytes × Ty)) (src : Ty) :
    ((Ty.ofForm (.aggregate shape false fields')).withSourcesOf src).kind = shaped.kind := by
  rw [Ty.kind_withSourcesOf, Ty.kind_of_form hform]
  rfl

/-- A narrowed aggregate is eager. -/
theorem isEager_narrowed (shape : Shape) (fields : List (Bytes × Ty)) (src : Ty) :
    ((Ty.ofForm (.aggregate shape false fields)).withSourcesOf src).isEager = true := by
  rw [Ty.isEager, Ty.kind_withSourcesOf]
  cases shape <;> rfl

/-- A narrowed aggregate has what its fields became where they are asked for. -/
theorem field?_narrowed (shape : Shape) (sub : Bytes × Ty → Ty) (he : src.expansion? = some eager)
    (hw : NameMap.Ordered wanted.fields) {e : Bytes × Ty} (hasked : e ∈ wanted.fields) :
    ((Ty.ofForm (.aggregate shape false (narrowedFields eager wanted sub))).withSourcesOf src).field? e.1 =
      eager.answer sub e := by
  have hkept : NameMap.find? (wanted.fields.filterMap (Run.kept (eager.answer sub))) e.1 = eager.answer sub e :=
    NameMap.find?_kept hw hasked
  have hordered : NameMap.Ordered (wanted.fields.filterMap (Run.kept (eager.answer sub))) := by
    refine hw.filterMap fun e e' hkept => ?_
    obtain ⟨t, -, rfl⟩ := Option.map_eq_some_iff.1 hkept
    rfl
  change NameMap.find? (narrowedFields eager wanted sub) e.1 = _
  rw [narrowedFields, NameMap.find?_insertAll hordered, hkept, find?_fields_expansion he, Ty.answer]
  cases eager.field? e.1 <;> rfl

/-- What a value is given fits, unless a file or large image stands for a record. -/
theorem fits_of_narrows (hs : src.InOrder) (hd : dst.InOrder) (h : c.Narrows f src dst t)
    (hclash : ¬ c.Clashes src dst) : c.Fits dst t := by
  induction h with
  | accepted h => exact h
  | converted _ h => exact fits_of_converts hd h
  | @kept f src dst eager wanted shaped r hr h hsa hda he hx hshape shape optional fields hform sub hsub ih =>
    obtain ⟨wanted', shaped', hx', hw, hshape', hkind, hfields⟩ := converts_aggregate h hr hsa hda
    obtain rfl : wanted = wanted' := Option.some.inj (hx.symm.trans hx')
    have hshaped : shaped.isEager = true := Ty.isEager_iff.2 ⟨_, _, _, hform⟩
    have hwanted := inOrder_expansion hd hx
    have hordered := Ty.ordered_fields_of_form (Ty.Everywhere.here hwanted)
    rw [fits_iff_expansion hda hx hw (isEager_narrowed _ _ _)]
    refine ⟨?_, fitsFields_iff.2 (.inr fun e hasked => .inr ?_)⟩
    · rw [kind_narrowed he hx hw hshape hshaped hshape' hkind hclash, kind_of_shaped hform]
    · rw [field?_narrowed shape sub he hordered hasked, Ty.answer, field?_expansion (Ty.Everywhere.here hs) he]
      rcases hfields e hasked with ⟨actual, -, hactual, -⟩ | ⟨hnone, hoptional⟩
      · rw [hactual]
        have hactual' : eager.field? e.1 = some actual := by
          rw [field?_expansion (Ty.Everywhere.here hs) he, hactual]
        refine .inl ⟨sub e, rfl, ih e hasked actual hactual' (Ty.Everywhere.field hs hactual) ?_ ?_⟩
        · exact Ty.Everywhere.part hwanted (Ty.mem_parts_of_mem_fields hasked)
        · exact fun hc => hclash (.inside hr hsa hda he hx hasked hactual' hc)
      · exact .inr ⟨by rw [hnone]; rfl, by simp [hoptional]⟩

/-- No record takes a file or large image. -/
theorem not_fits_of_kind_file (ht : t.kind = .file ∨ t.kind = .largeImage)
    (hd : dst.kind = .record ∨ dst.kind = .lazyRecord) : ¬ c.Fits dst t := by
  obtain ⟨hta, hda⟩ := Clashes.isAggregate (c := c) (.here ht hd)
  obtain ⟨hc, hte⟩ := compared_of_isAggregate hda hta
  have htl := isLazy_of_kind_file ht
  rcases hd with hd | hd
  · obtain ⟨shape, optional, fields, hform⟩ := Ty.isEager_iff.1 (show dst.isEager = true by rw [Ty.isEager, hd]; rfl)
    rw [fits_aggregate_iff hc hte hform, fitsAggregate_iff, htl, hd]
    rcases ht with ht | ht <;> simp [ht]
  · obtain ⟨isTable, optional, provider, hform⟩ :=
      Ty.isLazy_iff.1 (show dst.isLazy = true by rw [Ty.isLazy, hd]; rfl)
    rw [fits_lazy_iff hc hte hform, htl, hd]
    rcases ht with ht | ht <;> simp [ht, Kind.sameShape]

/-- What has the fields of an aggregate has each of them, up to those that take everything. -/
theorem fits_field (hw : NameMap.Ordered wanted.fields) (ht : t.isEager = true) (h : c.FitsFields wanted t)
    {e : Bytes × Ty} (he : e ∈ wanted.fields) (hk : e.2.kind ≠ .error ∧ e.2.kind ≠ .void) {actual : Ty}
    (hactual : t.field? e.1 = some actual) : c.Fits e.2 actual := by
  rcases fitsFields_iff.1 h with ⟨-, halike⟩ | h
  · obtain ⟨g, hg, hname, hequal⟩ := NameMap.exists_mem_of_forall₂ halike he
    have hnames := NameMap.names_eq_of_forall₂ (fun _ _ h => h.1) halike
    have hfound := NameMap.find?_of_mem (NameMap.ordered_of_names_eq hw hnames.symm) hg
    rw [Ty.field?_of_isEager ht, hname, hfound] at hactual
    cases hactual
    exact fits_of_equal hequal hk.2
  · rcases h e he with herror | ⟨actual', hactual', hfits⟩ | ⟨hnone, -⟩
    · exact absurd herror hk.1
    · rw [hactual] at hactual'
      cases hactual'
      exact hfits
    · rw [hactual] at hnone
      cases hnone

/-- What a value is given does not fit if a file or large image stands for a record. -/
theorem Clashes.not_fits (hd : dst.InOrder) (hclash : c.Clashes src dst) (h : c.Narrows f src dst t) :
    ¬ c.Fits dst t := by
  induction h with
  | accepted h =>
    cases hclash with
    | here hs hd => exact not_fits_of_kind_file hs hd
    | inside hr => exact hr.not_fits
  | @converted f src dst r hr h hcase =>
    obtain ⟨hsa, hda⟩ := hclash.isAggregate
    have hnone : src.expansion? = none := by simpa [hsa, hda] using hcase
    cases hclash with
    | here hs =>
      rw [expansion?_of_not_lazy (isLazy_of_kind_file hs)] at hnone
      cases hnone
    | inside _ _ _ he =>
      rw [he] at hnone
      cases hnone
  | @kept f src dst eager wanted shaped r hr h hsa hda he hx hshape shape optional fields hform sub hsub ih =>
    obtain ⟨wanted', -, hx', hw, -⟩ := converts_aggregate h hr hsa hda
    obtain rfl : wanted = wanted' := Option.some.inj (hx.symm.trans hx')
    have hwanted := inOrder_expansion hd hx
    have hordered := Ty.ordered_fields_of_form (Ty.Everywhere.here hwanted)
    have heager := isEager_narrowed shape (narrowedFields eager wanted sub) src
    cases hclash with
    | here hs hd =>
      refine not_fits_of_kind_file ?_ hd
      have hwt : wanted.isTable = false := by
        rw [isTable_expansion hx]
        rcases hd with hd | hd <;> rw [Ty.isTable, hd] <;> rfl
      rcases reshape_cases hshape with ⟨-, rfl⟩ | ⟨-, hwt', -⟩
      · rw [kind_of_shaped hform, expansion_of_not_lazy (isLazy_of_kind_file hs) he]
        exact hs
      · rw [hwt] at hwt'
        cases hwt'
    | @inside _ _ eager' wanted' actual e _ _ _ he' hx' hasked hactual hclash =>
      obtain rfl : eager = eager' := Option.some.inj (he.symm.trans he')
      obtain rfl : wanted = wanted' := Option.some.inj (hx.symm.trans hx')
      have hpart := Ty.Everywhere.part hwanted (Ty.mem_parts_of_mem_fields hasked)
      have haggregate := hclash.isAggregate.2
      have hk : e.2.kind ≠ .error ∧ e.2.kind ≠ .void := by
        constructor <;> intro hk <;> rw [Ty.isAggregate, hk] at haggregate <;> cases haggregate
      have hfield := field?_narrowed shape sub he hordered hasked
      rw [Ty.answer, hactual] at hfield
      intro hfits
      have hfields := ((fits_iff_expansion hda hx hw heager).1 hfits).2
      exact ih e hasked actual hactual hpart hclash (fits_field hordered heager hfields hasked hk hfield)

/-- **What a value is given is accepted unless a file stands for a record**: the destination accepts the type that a
source is given exactly if no file or large image stands where a record is asked for. -/
theorem accepts_coercionSubtype_iff (hs : src.InOrder) (hd : dst.InOrder)
    (h : (c.coercionSubtype f src dst).outcome = .ok (some t)) :
    (c.accepts dst t).outcome = .ok true ↔ ¬ c.Clashes src dst := by
  have hnarrows := narrows_of_coercionSubtype hs h
  rw [accepts_eq_true_iff]
  exact ⟨fun hfits hclash => hclash.not_fits hd hnarrows hfits, fits_of_narrows hs hd hnarrows⟩

/-- A record of a number. -/
def numberRecord : Ty := .ofForm (.aggregate .record false [(Bytes.ofString "A", .ofForm (Ty.bareForm .number))])

/-- A record of a number and a flag. -/
def keptRecord : Ty :=
  .ofForm (.aggregate .record false
    [(Bytes.ofString "A", .ofForm (Ty.bareForm .number)), (Bytes.ofString "B", .ofForm (Ty.bareForm .boolean))])

/-- A record keeps its flag when its texts become numbers. -/
theorem narrows_namedRecord : auditor.Narrows ⟨true, true⟩ namedRecord numberRecord keptRecord := by
  have hrefused : auditor.Refuses numberRecord namedRecord := by
    refine (fits_or_refuses answers_auditor (by decide +kernel) (by decide +kernel)).resolve_left fun hfits => ?_
    have hfields := ((fits_iff_expansion rfl rfl rfl rfl).1 hfits).2
    exact refuses_namedTexts.not_fits
      (fits_field (by decide) rfl hfields List.mem_cons_self ⟨by decide, by decide⟩ rfl)
  have hconverts : auditor.Converts ⟨true, true⟩ namedRecord numberRecord ⟨false, numberRecord⟩ := by
    refine .fields ⟨by decide, hrefused, by decide⟩ rfl rfl rfl rfl rfl rfl (by decide)
      (fun _ => ⟨false, .ofForm (Ty.bareForm .number)⟩) (List.forall_mem_singleton.2 ?_) (by decide)
    intro actual hactual
    cases hactual
    exact converts_namedTexts _
  refine .kept hrefused hconverts rfl rfl rfl rfl rfl rfl (fun _ => .ofForm (Ty.bareForm .number))
    (List.forall_mem_singleton.2 ?_)
  intro actual hactual
  cases hactual
  exact .converted refuses_namedTexts (converts_namedTexts _) (.inl rfl)

theorem accepts_coercionSubtype_namedRecord :
    namedRecord.InOrder ∧ numberRecord.InOrder ∧
      (auditor.coercionSubtype ⟨true, true⟩ namedRecord numberRecord).outcome = .ok (some keptRecord) ∧
      (auditor.accepts numberRecord keptRecord).outcome = .ok true := by
  have hs : namedRecord.InOrder := by decide +kernel
  have hd : numberRecord.InOrder := by decide +kernel
  have h := coercionSubtype_of_narrows narrows_namedRecord
  refine ⟨hs, hd, h, (accepts_coercionSubtype_iff hs hd h).2 fun hclash => ?_⟩
  cases hclash with
  | here hs => exact absurd hs (by decide)
  | inside _ _ _ he hx hasked hactual hclash =>
    cases he
    cases hx
    obtain rfl := List.mem_singleton.1 hasked
    exact absurd hclash.isAggregate.2 (by decide)

/-- A file with one field. -/
def fileOf (k : Kind) : Ty := .ofForm (.aggregate .file false [(Bytes.ofString "A", .ofForm (Ty.bareForm k))])

/-- A record does not accept a file. -/
theorem refuses_fileOf (k : Kind) (hk : (fileOf k).Sound) : auditor.Refuses numberRecord (fileOf k) :=
  (fits_or_refuses answers_auditor (by decide +kernel) hk).resolve_left
    (not_fits_of_kind_file (.inl rfl) (.inl rfl))

/-- The texts of a file become numbers where a record of them is asked for, and the file stays a file. -/
theorem narrows_fileOf (f : CoercionFlags) : auditor.Narrows f (fileOf .string) numberRecord (fileOf .number) := by
  have hrefused := refuses_fileOf .string (by decide +kernel)
  have hconverts : auditor.Converts f (fileOf .string) numberRecord ⟨false, numberRecord⟩ := by
    refine .fields ⟨by decide, hrefused, by decide⟩ rfl rfl rfl rfl rfl rfl (by decide)
      (fun _ => ⟨false, .ofForm (Ty.bareForm .number)⟩) (List.forall_mem_singleton.2 ?_) (by decide)
    intro actual hactual
    cases hactual
    exact converts_text _
  refine .kept hrefused hconverts rfl rfl rfl rfl rfl rfl (fun _ => .ofForm (Ty.bareForm .number))
    (List.forall_mem_singleton.2 ?_)
  intro actual hactual
  cases hactual
  exact .converted refuses_text (converts_text _) (.inl rfl)

/-- The record does not accept the file that it was to be given. -/
theorem refuses_coercionSubtype_file :
    (auditor.coercionSubtype ⟨false, false⟩ (fileOf .string) numberRecord).outcome = .ok (some (fileOf .number)) ∧
      (auditor.accepts numberRecord (fileOf .number)).outcome = .ok false :=
  ⟨coercionSubtype_of_narrows (narrows_fileOf _), refuses_fileOf .number (by decide +kernel)⟩

end Checker

end FormulaTypes
