import FormulaTypes.Proofs.NameMap
import FormulaTypes.Proofs.Ty.Form
import FormulaTypes.Proofs.Ty.Sound
import FormulaTypes.Ty.Edit

/-!
# Sound types are edited to sound types

A type is sound if its parts are and its node is in order and valid; one lemma for each form with parts says what that
takes (`sound_aggregate`, `sound_choices`, `sound_lazy`). An edit of a sound type that its kind admits succeeds, audited
or not, and gives a sound type (`exists_edit`).
-/

namespace FormulaTypes

/-- What a resolver gives is among the fields. -/
theorem Provider.mem_fields {p : Provider Ty} {e : Bytes × Resolver Ty} {t : Ty} (he : e ∈ p.resolvers)
    (ht : t ∈ e.2.result?) : (e.1, t) ∈ p.fields := by
  refine List.mem_filterMap.2 ⟨e, he, ?_⟩
  rw [Option.mem_def.1 ht]
  rfl

/-- What the resolver gives is sound. -/
def Resolver.Sound (r : Resolver Ty) : Prop := ∀ t ∈ r.result?, t.Sound

namespace Ty

variable {t u : Ty} {fields : NameMap Ty} {token : Option Token} {sources : NameSet}

/-! ## Building sound types -/

/-- An audit lets valid types pass. -/
theorem audited_of_isValid (h : t.isValid = true) (audit : Bool) : t.audited audit = .ok t := by
  rw [isValid, Option.isNone_iff_eq_none] at h
  cases audit <;> simp [audited, h]

theorem isValid_lazy (isTable optional : Bool) (p : Provider Ty) (token : Option Token) (sources : NameSet) :
    (Ty.node (.lazy isTable optional (some p)) token sources).isValid = true := by
  cases isTable <;> simp [isValid, violation?, kind, form, Form.kind, provider?, Kind.isValid, Kind.isAggregate]

theorem audited_lazy (audit isTable optional : Bool) (p : Provider Ty) (token : Option Token) (sources : NameSet) :
    (Ty.node (.lazy isTable optional (some p)) token sources).audited audit =
      .ok (.node (.lazy isTable optional (some p)) token sources) :=
  audited_of_isValid (isValid_lazy _ _ _ _ _) audit

theorem sound_aggregate {shape : Shape} {optional : Bool} (h : fields.All Sound) :
    (Ty.node (.aggregate shape optional fields) token sources).Sound := by
  refine .intro ⟨h.ordered, ?_⟩ fun part hpart => ?_
  · cases shape <;> simp [isValid, violation?, kind, form, Form.kind, Shape.kind, Kind.isValid, Kind.isLazy,
      Kind.isAggregate]
  · obtain ⟨e, he, rfl⟩ := List.mem_map.1 hpart
    exact h.holds e he

theorem sound_enum {superkind : Kind} {values : Values} (hk : superkind.isPrimitive = true) :
    (ofForm (.enum superkind values)).Sound := by
  refine .intro ⟨trivial, ?_⟩ (List.forall_mem_nil _)
  simp [isValid, violation?, kind, Ty.superkind, ofForm, form, Form.kind, Kind.isValid, Kind.isLazy, Ty.token, hk]

theorem sound_choices {choice : Choice} (h : fields.All Sound) :
    (Ty.node (.choices choice fields) token sources).Sound := by
  refine .intro ⟨h.ordered, ?_⟩ fun part hpart => ?_
  · cases choice <;> simp [isValid, violation?, kind, form, Form.kind, Choice.kind, Kind.isValid, Kind.isLazy,
      Kind.isOpaque]
  · obtain ⟨e, he, rfl⟩ := List.mem_map.1 hpart
    exact h.holds e he

theorem sound_lazy {isTable optional : Bool} {p : Provider Ty} (h : NameMap.All Resolver.Sound p.resolvers) :
    (Ty.node (.lazy isTable optional (some p)) token sources).Sound := by
  refine .intro ⟨h.ordered, isValid_lazy _ _ _ _ _⟩ fun part hpart => ?_
  obtain ⟨e, he, rfl⟩ := List.mem_map.1 hpart
  obtain ⟨r, hr, hresult⟩ := List.mem_filterMap.1 he
  obtain ⟨t, ht, rfl⟩ := Option.map_eq_some_iff.1 hresult
  exact h.holds r hr t ht

theorem Sound.all_fields (h : t.Sound) : t.fields.All Sound :=
  ⟨h.ordered_fields, fun _ he => h.part (mem_parts_of_mem_fields he)⟩

theorem Sound.all_resolvers {p : Provider Ty} (h : t.Sound) (hp : t.provider? = some p) :
    NameMap.All Resolver.Sound p.resolvers := by
  obtain ⟨form, token, sources⟩ := t
  cases form with
  | lazy isTable optional provider =>
    cases hp
    exact ⟨h.ordered, fun e he t ht => h.part (List.mem_map_of_mem (Provider.mem_fields he ht))⟩
  | leaf | enum | choices | aggregate => cases hp

/-- Sources are no matter of soundness. -/
theorem Sound.withSources (h : t.Sound) (more : List Bytes) : (t.withSources more).Sound := by
  obtain ⟨form, token, sources⟩ := t
  exact .intro (Everywhere.here h) fun part hpart => h.part hpart

theorem Sound.withSourcesOf (h : t.Sound) (u : Ty) : (t.withSourcesOf u).Sound :=
  h.withSources u.sources.members

/-- Types of a kind without further parts are sound. -/
theorem sound_ofKind {k : Kind} (h : ofKind k = .ok t) : t.Sound := by
  cases k <;> simp [ofKind, plainForm?, Kind.isLeaf, Kind.isValid] at h <;> subst h <;> decide +kernel

theorem sound_error : error.Sound := by decide +kernel

/-! ## Edits -/

/-- An edit of a type. -/
inductive Edit where
  | add (name : Bytes) (field : Ty)
  | drop (name : Bytes)
  | toRecord (entity : Option Token)
  | toTable (entity : Option Token)
  | withOptional (optional : Bool)
  | withEntity (entity : Option Token)
  | withSources (more : List Bytes)

namespace Edit

/-- What an edit makes of a type. -/
def run (audit : Bool) (t : Ty) : Edit → Except Fault Ty
  | .add name field => t.add audit name field
  | .drop name => t.drop audit name
  | .toRecord entity => t.toRecord audit entity
  | .toTable entity => t.toTable audit entity
  | .withOptional optional => t.withOptional audit optional
  | .withEntity entity => t.withEntity audit entity
  | .withSources more => .ok (t.withSources more)

/-- The kinds whose types can be edited so. Whatever has fields may have them bound and removed, and of what has none
only nothing can be made a record or a table. -/
def admits : Edit → Kind → Bool
  | .add _ _, k | .drop _, k => k.isAggregate || k = .optionSet || k = .view
  | .toRecord _, k | .toTable _, k => k.isAggregate || k = .objNull
  | .withOptional _, k | .withEntity _, k => k.isAggregate
  | .withSources _, _ => true

/-- A field is bound to a sound type. -/
def Sound : Edit → Prop
  | .add _ field => field.Sound
  | _ => True

end Edit

/-- The forms of sound aggregates. -/
theorem Sound.aggregate_cases (h : t.Sound) (ha : t.isAggregate = true) :
    (∃ shape optional fields token sources, t = .node (.aggregate shape optional fields) token sources ∧
      NameMap.All Sound fields) ∨
    ∃ isTable optional p token sources, t = .node (.lazy isTable optional (some p)) token sources ∧
      NameMap.All Resolver.Sound p.resolvers := by
  cases hl : t.isLazy with
  | false =>
    obtain ⟨shape, optional, fields, hform⟩ := isEager_iff.1 (isEager_of_not_lazy ha hl)
    obtain ⟨form, token, sources⟩ := t
    cases hform
    exact .inl ⟨shape, optional, fields, token, sources, rfl, h.all_fields⟩
  | true =>
    obtain ⟨p, hp⟩ := exists_provider h.valid hl
    obtain ⟨isTable, optional, provider, hform⟩ := isLazy_iff.1 hl
    obtain ⟨form, token, sources⟩ := t
    cases hform
    cases hp
    exact .inr ⟨isTable, optional, p, token, sources, rfl, h.all_resolvers rfl⟩

/-- Option sets and views have choices. -/
theorem exists_choices (h : t.kind = .optionSet ∨ t.kind = .view) :
    ∃ choice fields token sources, t = .node (.choices choice fields) token sources := by
  obtain ⟨form, token, sources⟩ := t
  cases form with
  | leaf k hk =>
    obtain rfl | rfl : k = .optionSet ∨ k = .view := h
    · cases hk
    · cases hk
  | enum => rcases h with h | h <;> cases h
  | choices choice fields => exact ⟨choice, fields, token, sources, rfl⟩
  | aggregate shape => cases shape <;> rcases h with h | h <;> cases h
  | lazy isTable => cases isTable <;> rcases h with h | h <;> cases h

theorem exists_audited (audit : Bool) (h : t.Sound) : ∃ u, t.audited audit = .ok u ∧ u.Sound :=
  ⟨t, audited_of_isValid h.valid audit, h⟩

theorem replaceToken_node (form : Form Ty) (token : Option Token) (sources : NameSet) (entity : Option Token) :
    (Ty.node form token sources).replaceToken entity = .node form (entity.or token) sources := by
  cases entity <;> rfl

section Edits

variable (audit : Bool)

theorem exists_add (h : t.Sound) (hk : t.isAggregate = true ∨ t.kind = .optionSet ∨ t.kind = .view) {field : Ty}
    (hf : field.Sound) (name : Bytes) : ∃ u, t.add audit name field = .ok u ∧ u.Sound := by
  rcases hk with ha | hc
  · obtain ⟨shape, optional, fields, token, sources, rfl, hfields⟩ | ⟨isTable, optional, p, token, sources, rfl, hp⟩ :=
      h.aggregate_cases ha
    · exact exists_audited audit (sound_aggregate (hfields.insert hf name))
    · have hbound : Resolver.Sound (.bound field) := by
        rintro t ⟨⟩
        exact hf
      exact exists_audited audit (sound_lazy (p := p.bind name (.bound field)) (hp.insert hbound name))
  · obtain ⟨choice, fields, token, sources, rfl⟩ := exists_choices hc
    exact exists_audited audit (sound_choices (h.all_fields.insert hf name))

theorem exists_drop (h : t.Sound) (hk : t.isAggregate = true ∨ t.kind = .optionSet ∨ t.kind = .view) (name : Bytes) :
    ∃ u, t.drop audit name = .ok u ∧ u.Sound := by
  rcases hk with ha | hc
  · obtain ⟨shape, optional, fields, token, sources, rfl, hfields⟩ | ⟨isTable, optional, p, token, sources, rfl, hp⟩ :=
      h.aggregate_cases ha
    · exact exists_audited audit (sound_aggregate (hfields.erase name))
    · refine exists_audited audit (sound_lazy ?_)
      rw [Provider.unbind]
      split
      · exact hp.erase name
      · exact hp
  · obtain ⟨choice, fields, token, sources, rfl⟩ := exists_choices hc
    exact exists_audited audit (sound_choices (h.all_fields.erase name))

/-- Nothing becomes an empty aggregate. -/
theorem exists_empty (shape : Shape) (entity : Option Token) :
    ∃ u, ((ofForm (.aggregate shape false [])).replaceToken entity).audited audit = .ok u ∧ u.Sound := by
  rw [ofForm, replaceToken_node]
  exact exists_audited audit (sound_aggregate NameMap.all_nil)

theorem exists_toRecord (h : t.Sound) (hk : t.isAggregate = true ∨ t.kind = .objNull) (entity : Option Token) :
    ∃ u, t.toRecord audit entity = .ok u ∧ u.Sound := by
  rcases hk with ha | hnull
  · obtain ⟨shape, optional, fields, token, sources, rfl, hfields⟩ | ⟨isTable, optional, p, token, sources, rfl, hp⟩ :=
      h.aggregate_cases ha
    · cases shape <;> simp only [toRecord, replaceToken_node] <;>
        exact exists_audited audit (sound_aggregate hfields)
    · rw [toRecord, replaceToken_node]
      exact exists_audited audit (sound_lazy hp)
  · obtain ⟨hleaf, hform⟩ := exists_leaf hnull (by decide) rfl rfl
    obtain ⟨form, token, sources⟩ := t
    cases hform
    exact exists_empty audit .record entity

theorem exists_toTable (h : t.Sound) (hk : t.isAggregate = true ∨ t.kind = .objNull) (entity : Option Token) :
    ∃ u, t.toTable audit entity = .ok u ∧ u.Sound := by
  rcases hk with ha | hnull
  · obtain ⟨shape, optional, fields, token, sources, rfl, hfields⟩ | ⟨isTable, optional, p, token, sources, rfl, hp⟩ :=
      h.aggregate_cases ha
    · rw [toTable, replaceToken_node]
      exact exists_audited audit (sound_aggregate hfields)
    · rw [toTable, replaceToken_node]
      exact exists_audited audit (sound_lazy hp)
  · obtain ⟨hleaf, hform⟩ := exists_leaf hnull (by decide) rfl rfl
    obtain ⟨form, token, sources⟩ := t
    cases hform
    exact exists_empty audit .table entity

theorem exists_withOptional (h : t.Sound) (ha : t.isAggregate = true) (optional : Bool) :
    ∃ u, t.withOptional audit optional = .ok u ∧ u.Sound := by
  obtain ⟨shape, old, fields, token, sources, rfl, hfields⟩ | ⟨isTable, old, p, token, sources, rfl, hp⟩ :=
    h.aggregate_cases ha
  · rw [withOptional]
    split
    · exact ⟨_, rfl, h⟩
    · exact exists_audited audit (sound_aggregate hfields)
  · rw [withOptional]
    split
    · exact ⟨_, rfl, h⟩
    · exact exists_audited audit (sound_lazy hp)

theorem exists_withEntity (h : t.Sound) (ha : t.isAggregate = true) (entity : Option Token) :
    ∃ u, t.withEntity audit entity = .ok u ∧ u.Sound := by
  rw [withEntity, if_pos ha]
  obtain ⟨shape, optional, fields, token, sources, rfl, hfields⟩ | ⟨isTable, optional, p, token, sources, rfl, hp⟩ :=
    h.aggregate_cases ha
  · exact exists_audited audit (sound_aggregate hfields)
  · exact exists_audited audit (sound_lazy hp)

/-- An edit that the kind of a sound type admits gives a sound type. -/
theorem exists_edit {edit : Edit} (h : t.Sound) (he : edit.Sound) (hk : edit.admits t.kind = true) :
    ∃ u, edit.run audit t = .ok u ∧ u.Sound := by
  cases edit with
  | add name field => exact exists_add audit h (by simpa [Edit.admits, isAggregate, or_assoc] using hk) he name
  | drop name => exact exists_drop audit h (by simpa [Edit.admits, isAggregate, or_assoc] using hk) name
  | toRecord entity => exact exists_toRecord audit h (by simpa [Edit.admits, isAggregate] using hk) entity
  | toTable entity => exact exists_toTable audit h (by simpa [Edit.admits, isAggregate] using hk) entity
  | withOptional optional => exact exists_withOptional audit h hk optional
  | withEntity entity => exact exists_withEntity audit h hk entity
  | withSources more => exact ⟨_, rfl, h.withSources more⟩

/-- Every other edit is a fault that names the kind. -/
theorem edit_eq_unsupported {edit : Edit} (hk : edit.admits t.kind = false) :
    ∃ operation, edit.run audit t = .error (.unsupported operation t.kind) := by
  obtain ⟨form, token, sources⟩ := t
  cases edit with
  | add | drop =>
    cases form with
    | leaf | enum => exact ⟨_, rfl⟩
    | choices choice => cases choice <;> cases hk
    | aggregate shape => cases shape <;> cases hk
    | lazy isTable => cases isTable <;> cases hk
  | toRecord | toTable =>
    obtain ⟨ha, hnull⟩ := Bool.or_eq_false_iff.1 hk
    cases form with
    | leaf | choices => exact ⟨_, if_neg (of_decide_eq_false hnull)⟩
    | enum => exact ⟨_, rfl⟩
    | aggregate shape => cases shape <;> cases ha
    | lazy isTable => cases isTable <;> cases ha
  | withOptional =>
    cases form with
    | leaf | enum | choices => exact ⟨_, rfl⟩
    | aggregate shape => cases shape <;> cases hk
    | lazy isTable => cases isTable <;> cases hk
  | withEntity => exact ⟨.entity, if_neg (Bool.eq_false_iff.1 hk)⟩
  | withSources => cases hk

end Edits

end Ty

end FormulaTypes
