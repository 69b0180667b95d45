import FormulaTypes.Proofs.Checker.Conversions
import FormulaTypes.Proofs.Checker.Merges
import FormulaTypes.Proofs.Checker.Overlaps
import FormulaTypes.Proofs.Spec.Sound
import FormulaTypes.Proofs.Ty.Edits

/-!
# Sound types stay sound

Between sound types of a class that is covered, every operation of a checker ends and gives sound types:
`Covers.gives_supertype`, `Covers.gives_union`, `Covers.gives_intersection`, `Covers.gives_coerce`,
`Covers.gives_coercionSubtype`. If what the directory knows is sound, all sound types are covered, and checks report
sound types (`AnswersSoundly.walks`). `KeepsSound` says it of all operations together.
-/

namespace FormulaTypes

namespace Checker

variable {c : Checker} {K : Ty → Prop} {a b s : Ty}

/-! ## Supertypes -/

theorem sound_mutualBound (ha : a.Sound) (hb : b.Sound) (h : (mutualBound a b).outcome = .ok s) : s.Sound := by
  unfold mutualBound at h
  split at h
  · obtain ⟨t, ht, hpure⟩ := Run.bind_eq_ok_iff.1 h
    cases hpure
    exact ((Ty.sound_ofKind ht).withSourcesOf a).withSourcesOf b
  · split at h
    · cases h
      exact ha.withSourcesOf b
    · cases h
      exact hb.withSourcesOf a

theorem sound_joinKinds (h : (joinKinds a b).outcome = .ok s) : s.Sound := by
  unfold joinKinds at h
  dsimp only at h
  split at h
  · cases h
    exact Ty.sound_error
  · obtain ⟨t, ht, hpure⟩ := Run.bind_eq_ok_iff.1 h
    cases hpure
    exact ((Ty.sound_ofKind ht).withSourcesOf a).withSourcesOf b

/-- Sound types are joined in a sound type. -/
theorem sound_of_joins (h : c.Joins a b s) (ha : a.Sound) (hb : b.Sound) : s.Sound := by
  induction h with
  | equal => exact ha.withSourcesOf _
  | apart | closed => exact Ty.sound_error
  | @shared a b _ _ _ _ _ _ _ sup _ ih =>
    refine Ty.sound_aggregate ⟨Ty.ordered_sharedFields ha.ordered_fields sup, fun g hg => ?_⟩
    obtain ⟨e, he, f, hf, rfl, -⟩ := Ty.mem_sharedFields_iff.1 hg
    exact ih e he f hf (ha.all_fields.holds e he) (hb.all_fields.holds _ (NameMap.mem_of_find? hf))
  | either _ _ _ hs => exact sound_mutualBound ha hb hs
  | left => exact ha.withSourcesOf _
  | right => exact hb.withSourcesOf _
  | expanded _ _ _ _ _ hea heb _ _ ih => exact ih (sound_expansion ha hea) (sound_expansion hb heb)
  | kinds _ _ _ _ hs => exact sound_joinKinds hs

theorem Covers.gives_supertype (hc : c.Covers K) (ha : K a) (hb : K b) : (c.supertype a b).Gives Ty.Sound := by
  obtain ⟨s, hs⟩ := hc.exists_joins ha hb
  exact ⟨s, supertype_of_joins hs, sound_of_joins hs (hc.sound ha) (hc.sound hb)⟩

theorem Covers.ends_accepts (hc : c.Covers K) (ha : K a) (hb : K b) : (c.accepts a b).Ends := by
  rcases hc.decides ha hb with h | h
  · exact ⟨true, accepts_eq_true_iff.2 h⟩
  · exact ⟨false, h⟩

theorem Covers.find?_fields (hc : c.Covers K) (ha : K a) {name : Bytes} {field : Ty}
    (h : NameMap.find? a.fields name = some field) : K field ∧ field.weight < a.weight :=
  ⟨hc.part ha (Ty.mem_parts_of_mem_fields (NameMap.mem_of_find? h)), Ty.weight_lt_of_find?_fields h⟩

theorem Covers.mem_fields (hc : c.Covers K) (ha : K a) {e : Bytes × Ty} (h : e ∈ a.fields) :
    K e.2 ∧ e.2.weight < a.weight :=
  ⟨hc.part ha (Ty.mem_parts_of_mem_fields h), Ty.weight_lt_of_mem_parts (Ty.mem_parts_of_mem_fields h)⟩

/-! ## Intersections and unions -/

/-- What sound types have in common is sound. -/
theorem sound_of_overlaps (h : Overlaps a b s) (ha : a.Sound) (hb : b.Sound) : s.Sound := by
  induction h with
  | equal | leaf => exact ha.withSourcesOf _
  | expanded _ _ _ hea heb _ _ ih => exact ih (sound_expansion ha hea) (sound_expansion hb heb)
  | closed | apart => exact Ty.sound_error
  | @shared a b _ _ _ _ _ _ _ meet _ ih =>
    refine Ty.sound_aggregate ⟨Ty.ordered_commonFields ha.ordered_fields meet, fun g hg => ?_⟩
    obtain ⟨e, he, f, hf, -, hcase⟩ := Ty.of_mem_commonFields hg
    have hse := ha.all_fields.holds e he
    rcases hcase with ⟨hboth, hg⟩ | ⟨-, -, hg⟩
    · rw [hg]
      exact ih e he f hf hboth hse (hb.all_fields.holds _ (NameMap.mem_of_find? hf))
    · rw [hg]
      exact hse

theorem Covers.gives_intersection (hc : c.Covers K) (ha : K a) (hb : K b) :
    (c.intersection a b).Gives Ty.Sound := by
  obtain ⟨r, hr⟩ := exists_overlaps (hc.sound ha) (hc.sound hb)
  exact ⟨r, intersection_of_overlaps hr, sound_of_overlaps hr (hc.sound ha) (hc.sound hb)⟩

theorem sound_of_mergesLeaves {m : Merge} (h : c.MergesLeaves a b m) (ha : a.Sound) (hb : b.Sound) : m.type.Sound := by
  cases h with
  | nullLeft | entityRight => exact hb
  | nullRight | entityLeft => exact ha
  | joined _ _ _ _ hs => exact sound_of_joins hs ha hb

/-- Sound types are merged to a sound type. -/
theorem sound_of_merges {m : Merge} (h : c.Merges a b m) (ha : a.Sound) (hb : b.Sound) : m.type.Sound := by
  induction h with
  | nullLeft | right => exact hb.withSourcesOf _
  | nullRight | left => exact ha.withSourcesOf _
  | apart | closed => exact Ty.sound_error
  | @fields a b _ _ _ _ _ _ merge hnew hleaves _ ih =>
    refine Ty.sound_aggregate (ha.all_fields.insertAll fun g hg => ?_)
    obtain ⟨e, he, rfl⟩ := List.mem_map.1 hg
    have hse := hb.all_fields.holds e he
    cases hf : NameMap.find? a.fields e.1 with
    | none =>
      rw [hnew e he hf]
      exact hse
    | some f =>
      have hsf := ha.all_fields.holds _ (NameMap.mem_of_find? hf)
      cases hboth : f.isEager && e.2.isEager with
      | false => exact sound_of_mergesLeaves (hleaves e he f hf hboth) hsf hse
      | true => exact ih e he f hf hboth hsf hse
  | either _ _ _ hs => exact sound_mutualBound ha hb hs
  | expanded _ _ _ _ _ hea heb _ _ ih => exact ih (sound_expansion ha hea) (sound_expansion hb heb)
  | joined _ _ _ _ hs => exact sound_of_joins hs ha hb

theorem Covers.gives_union (hc : c.Covers K) (ha : K a) (hb : K b) :
    (c.union a b).Gives fun m => m.type.Sound := by
  obtain ⟨m, hm⟩ := hc.exists_merges ha hb
  exact ⟨m, union_of_merges hm, sound_of_merges hm (hc.sound ha) (hc.sound hb)⟩

/-! ## Coercions -/

section Coercions

variable {f : CoercionFlags} {src dst : Ty}

theorem gives_coerceAlong {look : Bytes → Ty → Run (Option (Option Coercion))} {fields : List (Bytes × Ty)}
    {P : Coercion → Prop}
    (h : ∀ e ∈ fields, (look e.1 e.2).Gives fun found => ∀ answer ∈ found, ∀ r ∈ answer, P r) :
    (coerceAlong fields look).Gives fun found => ∀ entries ∈ found,
      List.Sublist (entries.map Prod.fst) (fields.map Prod.fst) ∧ ∀ e ∈ entries, P e.2 := by
  induction fields with
  | nil =>
    exact Run.gives_some ⟨List.Sublist.refl _, List.forall_mem_nil _⟩
  | cons e fields ih =>
    obtain ⟨name, t⟩ := e
    rw [coerceAlong]
    refine Run.gives_bind (h (name, t) List.mem_cons_self) ?_
    rintro (_ | answer) hanswer
    · exact Run.gives_none
    refine Run.gives_bind (ih fun e he => h e (List.mem_cons_of_mem _ he)) ?_
    rintro (_ | more) hmore
    · exact Run.gives_none
    obtain ⟨hsub, hmore⟩ := hmore more rfl
    cases answer with
    | some r =>
      exact Run.gives_some ⟨hsub.cons_cons name, List.forall_mem_cons.2 ⟨hanswer (some r) rfl r rfl, hmore⟩⟩
    | none =>
      exact Run.gives_some ⟨hsub.cons name, hmore⟩

theorem gives_expandLazy {β : Type} {P : β → Prop} (audit : Bool) (k : Option Ty → Run β)
    (h : (k dst.expansion?).Gives P) :
    (if dst.isLazy = true then dst.expand audit >>= k else pure (some dst) >>= k).Gives P := by
  obtain ⟨b, hb, hp⟩ := h
  exact ⟨b, (outcome_expandLazy audit k).trans hb, hp⟩

/-- Aggregates may be reshaped. -/
theorem ends_reshape (hs : src.Sound) (ha : src.isAggregate = true) (dst : Ty) : (c.reshape f src dst).Ends := by
  rw [reshape]
  split
  · exact Run.ends_pure _
  split
  · obtain ⟨table, htable, -⟩ := Ty.exists_toTable c.audit hs (.inl ha) none
    exact Run.ends_bind ⟨table, htable⟩ fun _ _ => Run.ends_pure _
  · exact Run.ends_pure _

/-- Eager aggregates stay eager in every shape. -/
theorem isEager_of_reshape {shaped : Ty} (hs : src.isEager = true)
    (h : (c.reshape f src dst).outcome = .ok (some shaped)) : shaped.isEager = true := by
  obtain ⟨-, rfl⟩ | ⟨-, -, -, -, -, hkind⟩ := reshape_cases h
  · exact hs
  · rw [Ty.isEager, hkind hs]
    rfl

/-- The type of the coercion, if there is one, is sound. -/
def SoundCoercion (found : Option Coercion) : Prop := ∀ r ∈ found, r.type.Sound

theorem Covers.gives_coerceAggregate (hc : c.Covers K) (hs : K src) (hd : K dst) (ha : dst.isAggregate = true)
    (ih : ∀ name actual, src.field? name = some actual → ∀ expected, K expected →
      (c.coerce f.nested actual expected).Gives SoundCoercion) :
    (c.coerceAggregate f src dst).Gives SoundCoercion := by
  rw [coerceAggregate]
  refine Run.gives_ite (fun _ => Run.gives_none) fun hsrc => ?_
  simp only [Bool.or_eq_true, Bool.not_eq_true', not_or, Bool.not_eq_false] at hsrc
  refine gives_expandLazy _ _ ?_
  cases hx : dst.expansion? with
  | none => exact Run.gives_none
  | some wanted =>
    obtain ⟨shape, optional, fields, hform⟩ := Ty.isEager_iff.1 (isEager_expansion (hc.sound hd) ha hx)
    have hwanted := hc.expansion hd hx
    obtain ⟨shaped, hshaped⟩ := ends_reshape (hc.sound hs) hsrc.1 wanted
    refine Run.gives_of_ok hshaped ?_
    cases shaped with
    | none => exact Run.gives_none
    | some shaped =>
      refine Run.gives_ite (fun _ => Run.gives_none) fun _ => ?_
      refine Run.gives_bind (gives_coerceAlong (P := fun r => r.type.Sound) fun e he => ?_) ?_
      · refine Run.gives_of_ok (Run.outcome_note _) ?_
        split
        · next actual hactual =>
          refine Run.gives_bind (ih _ actual hactual e.2 (hc.mem_fields hwanted he).1) fun found hfound => ?_
          refine Run.gives_pure fun answer hanswer => ?_
          obtain ⟨r, hr, rfl⟩ := Option.map_eq_some_iff.1 hanswer
          rintro _ ⟨⟩
          exact hfound r hr
        · split
          · refine Run.gives_some ?_
            rintro _ ⟨⟩
          · exact Run.gives_none
      · rintro (_ | entries) hentries
        · exact Run.gives_none
        obtain ⟨hnames, hsound⟩ := hentries entries rfl
        refine Run.gives_of_ok (outcome_coerced hform entries) (Run.gives_some (Ty.sound_aggregate ?_))
        refine NameMap.all_of_sublist (hc.sound hwanted).ordered_fields ?_ fun e he => ?_
        · rw [NameMap.names, List.map_map]
          exact hnames
        · obtain ⟨r, hr, rfl⟩ := List.mem_map.1 he
          exact hsound r hr

theorem Covers.gives_coerce (hc : c.Covers K) (hs : K src) (hd : K dst) :
    (c.coerce f src dst).Gives SoundCoercion := by
  -- It is the source that gets lighter: an enum gives way to its plain kind, an aggregate to its fields.
  induction src using Ty.weightInduction generalizing f dst with
  | step src ih =>
    rw [coerce]
    refine Run.gives_ite (fun _ => Run.gives_none) fun _ => ?_
    obtain ⟨accepted, haccepted⟩ := hc.ends_accepts hd hs
    refine Run.gives_of_ok haccepted ?_
    refine Run.gives_ite (fun _ => Run.gives_some (hc.sound hd)) fun _ => ?_
    refine Run.gives_ite (fun _ => Run.gives_none) fun _ => ?_
    refine Run.gives_ite (fun _ => Run.gives_some (hc.sound hd)) fun _ => ?_
    split
    · next he =>
      obtain ⟨base, hbase, hkbase⟩ := hc.base hs he
      split
      · next fault hfault =>
        rw [hfault] at hbase
        cases hbase
      · next base' hbase' =>
        rw [hbase] at hbase'
        cases hbase'
        exact ih base (weight_ofKind_lt he hbase) hkbase hd
    refine Run.gives_ite (fun _ => ?_) fun _ => ?_
    · split
      · exact Run.gives_some (hc.sound hd)
      · exact Run.gives_none
    refine Run.gives_ite (fun ha => ?_) fun _ => ?_
    · refine hc.gives_coerceAggregate hs hd ha fun name actual hactual expected hexpected => ?_
      exact ih actual (Ty.weight_lt_of_field? hactual) (hc.part hs (Ty.mem_parts_of_field? hactual)) hexpected
    refine Run.gives_ite (fun _ => Run.gives_none) fun _ => Run.gives_pure fun r hr => ?_
    obtain ⟨safe, -, rfl⟩ := Option.map_eq_some_iff.1 hr
    exact hc.sound hd

theorem Covers.gives_coercionSubtype (hc : c.Covers K) (hs : K src) (hd : K dst) :
    (c.coercionSubtype f src dst).Gives fun found => ∀ t ∈ found, t.Sound := by
  induction src using Ty.weightInduction generalizing f dst with
  | step src ih =>
    rw [coercionSubtype]
    obtain ⟨accepted, haccepted⟩ := hc.ends_accepts hd hs
    refine Run.gives_of_ok haccepted ?_
    refine Run.gives_ite (fun _ => Run.gives_some (hc.sound hs)) fun _ => ?_
    refine Run.gives_bind (hc.gives_coerce hs hd) ?_
    rintro (_ | r) hr
    · exact Run.gives_none
    have hr : r.type.Sound := hr r rfl
    refine Run.gives_ite (fun _ => Run.gives_some hr) fun haggregate => ?_
    simp only [Bool.or_eq_true, Bool.not_eq_true', not_or, Bool.not_eq_false] at haggregate
    refine Run.gives_of_ok (outcome_expand _ _) ?_
    split
    · split
      · exact Run.gives_some hr
      · next eager hx =>
        have hkeager := hc.expansion hs hx
        have heager := isEager_expansion (hc.sound hs) haggregate.1 hx
        refine gives_expandLazy _ _ ?_
        cases hy : dst.expansion? with
        | none => exact Run.gives_some hr
        | some wanted =>
          obtain ⟨shaped, hshaped⟩ := ends_reshape (hc.sound hkeager) (Ty.of_isEager heager).1 wanted
          refine Run.gives_of_ok hshaped ?_
          cases shaped with
          | none => exact Run.gives_some hr
          | some shaped =>
            obtain ⟨shape, optional, fields, hform⟩ := Ty.isEager_iff.1 (isEager_of_reshape heager hshaped)
            refine Run.gives_bind (Run.gives_collectAlong (P := Ty.Sound) fun e he => ?_) ?_
            · split
              · next actual hactual =>
                obtain ⟨hkactual, hweight⟩ := hc.find?_fields hkeager hactual
                have hle := Ty.weight_expansion? hx
                exact ih actual (by omega) hkactual (hc.mem_fields (hc.expansion hd hy) he).1
              · exact Run.gives_none
            · rintro changed ⟨-, hchanged⟩
              have hfields := (hc.sound hkeager).all_fields.insertAll hchanged
              rw [ofKindFields_eq hform]
              exact Run.gives_of_ok (Run.outcome_lift _)
                (Run.gives_some ((Ty.sound_aggregate hfields).withSourcesOf src))
    · exact Run.gives_some hr

end Coercions

/-! ## Sound directories -/

/-- Looking up an entity ends, and what it gives is in order and sound. -/
def AnswersSoundly (c : Checker) : Prop :=
  ∀ look token, c.entities = some look → ∃ found, look token = .ok found ∧
    ∀ entity, found = some entity → NameMap.All Ty.Sound entity.fields

theorem AnswersSoundly.answers (hc : c.AnswersSoundly) : c.Answers := by
  intro look token hlook
  obtain ⟨found, hfound, hsound⟩ := hc look token hlook
  exact ⟨found, hfound, fun entity hentity e he => ((hsound entity hentity).holds e he).provided⟩

/-- The table of an entity is sound. -/
theorem AnswersSoundly.exists_expandEntity (hc : c.AnswersSoundly) (t : Ty) :
    ∃ found, t.expandEntity c.audit c.entities = .ok found ∧
      ∀ table ∈ found, table.Sound ∧ table.isAggregate = true := by
  obtain ⟨found, hfound⟩ := ends_expandEntity hc.answers.looksUp t
  refine ⟨found, hfound, ?_⟩
  rintro table ⟨⟩
  have hk : t.kind = .dataEntity := by
    unfold Ty.expandEntity at hfound
    split at hfound
    · assumption
    · cases hfound
  obtain ⟨token, look, entity, -, hlook, hentity, rfl⟩ := (expandEntity_eq_some_iff hk).1 hfound
  obtain ⟨found, hfound, hsound⟩ := hc look token hlook
  rw [hentity, Except.ok.injEq] at hfound
  exact ⟨(Ty.sound_aggregate (hsound entity hfound.symm)).withSources entity.sources, rfl⟩

/-- Checks of sound types report sound types. -/
theorem AnswersSoundly.walks (hc : c.AnswersSoundly) : c.Walks Ty.Sound Ty.Sound where
  dstPart h hpart := h.part hpart
  srcPart h hpart := h.part hpart
  base h he := Ty.exists_ofKind (Ty.superkind_isPrimitive h.valid he)
  providers h k hlazy klazy := ⟨Ty.Everywhere.here h.provided hlazy, Ty.Everywhere.here k.provided klazy⟩
  entity {t} _ _ := by
    obtain ⟨found, hfound, hsound⟩ := hc.exists_expandEntity t
    refine ⟨found, hfound, fun table htable => ⟨(hsound table htable).1, fun record hrecord => ?_⟩⟩
    obtain ⟨htable, haggregate⟩ := hsound table htable
    obtain ⟨record', hrecord', hsound'⟩ := Ty.exists_toRecord c.audit htable (.inl haggregate) none
    rw [hrecord] at hrecord'
    cases hrecord'
    exact hsound'

/-- No operation of a checker on two types meets a fault, unless the kind does not have it, and all types that they give
are sound. -/
structure KeepsSound (c : Checker) (a b : Ty) : Prop where
  accepts : (c.accepts a b).Ends
  check : (c.check a b).Gives (Between Ty.Sound Ty.Sound)
  supertype : (c.supertype a b).Gives Ty.Sound
  union : (c.union a b).Gives fun m => m.type.Sound
  intersection : (c.intersection a b).Gives Ty.Sound
  coerce : ∀ f, (c.coerce f a b).Gives fun found => ∀ r ∈ found, r.type.Sound
  coercionSubtype : ∀ f, (c.coercionSubtype f a b).Gives fun found => ∀ t ∈ found, t.Sound
  expand : (a.expand c.audit).Gives fun found => ∀ t ∈ found, t.Sound
  expandEntity : ∃ found, a.expandEntity c.audit c.entities = .ok found ∧ ∀ t ∈ found, t.Sound
  edit : ∀ edit : Ty.Edit, edit.Sound → edit.admits a.kind = true → ∃ u, edit.run c.audit a = .ok u ∧ u.Sound
  /-- Only an edit that the kind does not admit is a fault. -/
  unsupported : ∀ edit : Ty.Edit, edit.admits a.kind = false →
    ∃ operation, edit.run c.audit a = .error (.unsupported operation a.kind)

/-- If what a directory knows is sound, then every operation on sound types gives sound types and meets no fault, be the
types that it builds audited or not. Every type that is read on the way to the type of a text is sound, too, and passes
an audit. -/
theorem keepsSound_and_sound_of_read (hc : c.AnswersSoundly) (ha : a.Sound) (hb : b.Sound) :
    c.KeepsSound a b ∧
      (∀ fuel, (Spec.readType fuel).Yields fun t => t.Sound ∧ ∀ audit, t.audited audit = .ok t) ∧
      ∀ text t, Spec.parse text = .ok t → t.Sound := by
  have hcovers := hc.answers.covers
  have hexpand : (a.expand c.audit).Gives fun found => ∀ t ∈ found, t.Sound :=
    ⟨_, outcome_expand _ _, fun t ht => sound_expansion ha ht⟩
  have hentity : ∃ found, a.expandEntity c.audit c.entities = .ok found ∧ ∀ t ∈ found, t.Sound := by
    obtain ⟨found, hfound, hsound⟩ := hc.exists_expandEntity a
    exact ⟨found, hfound, fun t ht => (hsound t ht).1⟩
  have hread : ∀ fuel, (Spec.readType fuel).Yields fun t => t.Sound ∧ ∀ audit, t.audited audit = .ok t := by
    intro fuel ls t rest h
    have hsound := Spec.yields_readType fuel ls t rest h
    exact ⟨hsound, Ty.audited_of_isValid hsound.valid⟩
  exact
    ⟨{ accepts := hcovers.ends_accepts ha hb
       check := hc.walks.gives_check ha hb
       supertype := hcovers.gives_supertype ha hb
       union := hcovers.gives_union ha hb
       intersection := hcovers.gives_intersection ha hb
       coerce := fun _ => hcovers.gives_coerce ha hb
       coercionSubtype := fun _ => hcovers.gives_coercionSubtype ha hb
       expand := hexpand
       expandEntity := hentity
       edit := fun _ he hk => Ty.exists_edit c.audit ha he hk
       unsupported := fun _ hk => Ty.edit_eq_unsupported c.audit hk },
      hread, fun _ _ h => Spec.sound_of_parse h⟩

theorem answersSoundly_singleEntity : singleEntity.AnswersSoundly := by
  intro look token hlook
  cases hlook
  refine ⟨_, rfl, ?_⟩
  rintro entity ⟨⟩
  refine ⟨by decide, fun e he => ?_⟩
  obtain rfl := List.mem_singleton.1 he
  decide +kernel

theorem keepsSound_tables :
    singleEntity.audit = true ∧ singleEntity.AnswersSoundly ∧ demandedTable.Sound ∧ eagerTable.Sound ∧
      singleEntity.KeepsSound demandedTable eagerTable ∧
      ((Ty.Edit.drop (Bytes.ofString "A")).admits demandedTable.kind = true ∧
        ∃ u, demandedTable.drop true (Bytes.ofString "A") = .ok u ∧ u.Sound) := by
  have ha : demandedTable.Sound := by decide +kernel
  have hb : eagerTable.Sound := by decide +kernel
  have hkeeps := (keepsSound_and_sound_of_read answersSoundly_singleEntity ha hb).1
  exact ⟨rfl, answersSoundly_singleEntity, ha, hb, hkeeps, rfl, hkeeps.edit (.drop (Bytes.ofString "A")) trivial rfl⟩

end Checker

end FormulaTypes
