import FormulaTypes.Checker.Supertype
import FormulaTypes.Proofs.Checker.Ends
import FormulaTypes.Proofs.Kind
import FormulaTypes.Proofs.NameMap

/-!
# How two types are joined

`c.Joins a b s` has one rule for each way in which a supertype comes about. What the rules give is what the supertype
is (`supertype_of_joins`), sound types are always joined (`exists_joins`) if look-ups end, and every supertype that
comes out is from the rules (`joins_of_supertype`), so that a property of all supertypes is one case a rule.
-/

namespace FormulaTypes

/-- The token that two aggregates share. -/
def Token.common (s t : Option Token) : Option Token := if s.isSome && Token.same s t then s else none

namespace Ty

variable {a b : Ty}

/-- A type of a form, with the sources of two types. -/
def ofForm₂ (form : Form Ty) (token : Option Token) (a b : Ty) : Ty :=
  .node form token ((NameSet.ofList a.sources.members).insertAll b.sources.members)

/-- What is kept of a field of `a`: the supertype with the field of `b`, unless there is none but `error`. -/
def sharedField (b : Ty) (sup : Bytes × Ty → Ty) (e : Bytes × Ty) : Option Ty :=
  match NameMap.find? b.fields e.1 with
  | some _ => if (sup e).kind = .error then none else some (sup e)
  | none => none

/-- The fields that two types share, each with its supertype. -/
def sharedFields (a b : Ty) (sup : Bytes × Ty → Ty) : NameMap Ty := a.fields.filterMap (Run.kept (sharedField b sup))

/-- The fields that two types share are made of a field of each. -/
theorem mem_sharedFields_iff {sup : Bytes × Ty → Ty} {g : Bytes × Ty} :
    g ∈ a.sharedFields b sup ↔
      ∃ e ∈ a.fields, ∃ f, NameMap.find? b.fields e.1 = some f ∧ g = (e.1, sup e) ∧ (sup e).kind ≠ .error := by
  rw [sharedFields, List.mem_filterMap]
  refine exists_congr fun e => and_congr_right fun _ => ?_
  rw [Run.kept, sharedField]
  cases NameMap.find? b.fields e.1 with
  | none => simp
  | some f => by_cases hk : (sup e).kind = .error <;> simp [hk, eq_comm]

/-- What is kept of some fields is in their order. -/
theorem ordered_kept {fields : NameMap Ty} (h : NameMap.Ordered fields) (finding : Bytes × Ty → Option Ty) :
    NameMap.Ordered (fields.filterMap (Run.kept finding)) := by
  refine h.filterMap ?_
  intro e e' he
  obtain ⟨t, -, rfl⟩ := Option.map_eq_some_iff.1 he
  rfl

/-- The fields that two types share are in the order of the first type. -/
theorem ordered_sharedFields (h : NameMap.Ordered a.fields) (sup : Bytes × Ty → Ty) :
    NameMap.Ordered (a.sharedFields b sup) := ordered_kept h _

/-- What two types share under a name is made of what both have there. -/
theorem find?_sharedFields (h : NameMap.Ordered a.fields) (sup : Bytes × Ty → Ty) (name : Bytes) :
    NameMap.find? (a.sharedFields b sup) name =
      (NameMap.find? a.fields name).bind fun t => sharedField b sup (name, t) :=
  NameMap.find?_filterMap h name

/-- Types with further sources are equal to what they were. -/
theorem equal_withSourcesOf (t u : Ty) : (t.withSourcesOf u).equal t = true :=
  equal_of_form_eq (form_withSources t _) (token_withSources t _)

/-- Sound types of one kind are equal, enums, opaque types and aggregates aside. -/
theorem equal_of_kind_eq (ha : a.Sound) (hb : b.Sound) (hk : a.kind = b.kind) (he : a.kind ≠ .enum)
    (hsealed : a.kind.isOpaque = false) (haggregate : a.kind.isAggregate = false) : a.equal b = true := by
  obtain ⟨hleaf, hform⟩ := exists_leaf rfl he hsealed haggregate
  obtain ⟨hleaf', hform'⟩ := exists_leaf hk.symm he hsealed haggregate
  refine equal_iff.2 ⟨?_, ?_⟩
  · rw [hform, hform']
    exact .leaf hleaf hleaf'
  · rw [token_eq_none ha.valid hsealed haggregate, token_eq_none hb.valid (hk ▸ hsealed) (hk ▸ haggregate)]
    rfl

end Ty

namespace Checker

variable {c : Checker} {a b s : Ty}

/-- The aggregate of two aggregates with some fields. -/
theorem outcome_aggregateLike {shape : Shape} {optional : Bool} {old : List (Bytes × Ty)}
    (hform : a.form = .aggregate shape optional old) (fields : NameMap Ty) :
    (c.aggregateLike a b fields).outcome =
      .ok (Ty.ofForm₂ (.aggregate shape (a.optional || b.optional) fields) (Token.common a.token b.token) a b) := by
  have hentity : ∀ o, Ty.withEntity c.audit (Ty.ofForm (.aggregate shape o fields)) a.token =
      .ok (.node (.aggregate shape o fields) a.token ∅) := by
    intro o
    rw [Ty.withEntity, if_pos (by cases shape <;> rfl)]
    exact audited_aggregate _ _ _ _ _ _
  rw [aggregateLike, ofKindFields_eq hform, Run.bind_of_ok (Run.outcome_lift _), Token.common]
  cases a.optional || b.optional with
  | false =>
    simp only [Bool.false_eq_true, if_false]
    rw [Run.bind_of_ok (Run.outcome_pure _)]
    split
    · rw [hentity, Run.bind_of_ok (Run.outcome_lift _)]
      rfl
    · rfl
  | true =>
    have hoptional : Ty.withOptional c.audit (Ty.ofForm (.aggregate shape false fields)) true =
        .ok (Ty.ofForm (.aggregate shape true fields)) := by
      rw [Ty.ofForm, Ty.withOptional, if_neg (by decide)]
      exact audited_aggregate _ _ _ _ _ _
    simp only [if_true]
    rw [hoptional, Run.bind_of_ok (Run.outcome_lift _)]
    split
    · rw [hentity, Run.bind_of_ok (Run.outcome_lift _)]
      rfl
    · rfl

/-- Both types are aggregates of one shape and may be expanded. -/
def bothExpand (a b : Ty) : Bool :=
  a.isAggregate && b.isAggregate && decide (a.isTable = b.isTable) && a.expansion?.isSome && b.expansion?.isSome

theorem outcome_expandBoth (a b : Ty) : (c.expandBoth a b).outcome = .ok (bothExpand a b) := by
  rw [expandBoth, bothExpand]
  split
  · next hshape =>
    simp only [Bool.or_eq_true, Bool.not_eq_true', decide_eq_true_eq] at hshape
    rcases hshape with (ha | hb) | ht
    · simp [ha]
    · simp [hb]
    · simp [ht]
  · next hshape =>
    simp only [Bool.or_eq_true, Bool.not_eq_true', decide_eq_true_eq, not_or, Bool.not_eq_false, not_not] at hshape
    rw [Run.bind_of_ok (outcome_expand _ _)]
    cases ha : a.expansion? with
    | none => simp
    | some ea =>
      dsimp only
      rw [Run.bind_of_ok (outcome_expand _ _)]
      cases hb : b.expansion? with
      | none => simp
      | some eb => simp [hshape]

/-- The types are not equal and not both eager aggregates, so that they are joined by what accepts what. -/
structure Unshared (a b : Ty) : Prop where
  unequal : ¬ a.equal b = true
  uneager : ¬ (a.isEager && b.isEager) = true

/-- How a checker joins two types. -/
inductive Joins (c : Checker) : Ty → Ty → Ty → Prop
  /-- Equal types are joined in the first of them. -/
  | equal {a b : Ty} (h : a.equal b = true) : Joins c a b (a.withSourcesOf b)
  /-- Eager aggregates of different kinds have nothing in common. -/
  | apart {a b : Ty} (h : a.equal b = false) (ha : a.isEager = true) (hb : b.isEager = true) (hk : a.kind ≠ b.kind) :
      Joins c a b .error
  /-- Eager aggregates of one kind keep the fields that they share. -/
  | shared {a b : Ty} (h : a.equal b = false) (hb : b.isEager = true) {shape : Shape} {optional : Bool}
      {fields : List (Bytes × Ty)} (ha : a.form = .aggregate shape optional fields) (hk : a.kind = b.kind)
      (sup : Bytes × Ty → Ty)
      (hsup : ∀ e ∈ a.fields, ∀ f, NameMap.find? b.fields e.1 = some f → Joins c e.2 f (sup e)) :
      Joins c a b (.ofForm₂ (.aggregate shape (a.optional || b.optional) (a.sharedFields b sup))
        (Token.common a.token b.token) a b)
  /-- Of two types that accept each other one stands for both. -/
  | either {a b s : Ty} (h : Unshared a b) (hab : c.exactly.Fits a b) (hba : c.exactly.Fits b a)
      (hs : (mutualBound a b).outcome = .ok s) : Joins c a b s
  | left {a b : Ty} (h : Unshared a b) (hab : c.exactly.Fits a b) (hba : c.exactly.Refuses b a) :
      Joins c a b (a.withSourcesOf b)
  | right {a b : Ty} (h : Unshared a b) (hab : c.exactly.Refuses a b) (hba : c.exactly.Fits b a) :
      Joins c a b (b.withSourcesOf a)
  /-- Lazy types are joined as their expansions. -/
  | expanded {a b ea eb s : Ty} (h : Unshared a b) (hab : c.exactly.Refuses a b) (hba : c.exactly.Refuses b a)
      (hl : (a.isLazy || b.isLazy) = true) (hx : bothExpand a b = true) (ha : a.expansion? = some ea)
      (hb : b.expansion? = some eb) (hp : a.hasProvider = true ∨ b.hasProvider = true) (hs : Joins c ea eb s) :
      Joins c a b s
  /-- Lazy types that cannot be expanded have nothing in common with what they do not accept. -/
  | closed {a b : Ty} (h : Unshared a b) (hab : c.exactly.Refuses a b) (hba : c.exactly.Refuses b a)
      (hl : (a.isLazy || b.isLazy) = true) (hx : bothExpand a b = false) : Joins c a b .error
  /-- Types without fields to compare meet in the hierarchy of kinds. -/
  | kinds {a b s : Ty} (h : Unshared a b) (hab : c.exactly.Refuses a b) (hba : c.exactly.Refuses b a)
      (hl : (a.isLazy || b.isLazy) = false) (hs : (joinKinds a b).outcome = .ok s) : Joins c a b s

/-- What the rules give is the supertype. -/
theorem supertype_of_joins (h : c.Joins a b s) : (c.supertype a b).outcome = .ok s := by
  induction h with
  | equal h =>
    rw [supertype, if_pos h]
    rfl
  | apart h ha hb hk =>
    rw [supertype, if_neg (by simp [h]), if_pos (by simp [ha, hb]), if_pos hk]
    rfl
  | @shared a b h hb shape optional fields ha hk sup hsup ih =>
    have hea : a.isEager = true := Ty.isEager_iff.2 ⟨_, _, _, ha⟩
    rw [supertype, if_neg (by simp [h]), if_pos (by simp [hea, hb]), if_neg (not_not.2 hk)]
    refine Run.bind_eq_ok_iff.2
      ⟨a.sharedFields b sup, Run.collectAlong_eq_ok fun e he => ?_, outcome_aggregateLike ha _⟩
    rw [Ty.sharedField]
    split
    · next f hf =>
      rw [Run.bind_of_ok (ih e he f hf), hf]
      rfl
    · next hf =>
      rw [hf]
      rfl
  | either h hab hba hs =>
    rw [supertype, if_neg h.unequal, if_neg h.uneager, Run.bind_of_ok (accepts_eq_true_iff.2 hab),
      Run.bind_of_ok (accepts_eq_true_iff.2 hba)]
    exact hs
  | left h hab hba =>
    rw [supertype, if_neg h.unequal, if_neg h.uneager, Run.bind_of_ok (accepts_eq_true_iff.2 hab), Run.bind_of_ok hba]
    rfl
  | right h hab hba =>
    rw [supertype, if_neg h.unequal, if_neg h.uneager, Run.bind_of_ok hab, Run.bind_of_ok (accepts_eq_true_iff.2 hba)]
    rfl
  | expanded h hab hba hl hx ha hb hp hs ih =>
    rw [supertype, if_neg h.unequal, if_neg h.uneager, Run.bind_of_ok hab, Run.bind_of_ok hba]
    simp only [Bool.and_self, Bool.false_eq_true, if_false]
    rw [if_pos hl, Run.bind_of_ok (outcome_expandBoth _ _), hx, if_pos rfl]
    split
    · next ea' eb' ha' hb' =>
      rw [ha] at ha'
      rw [hb] at hb'
      cases ha'
      cases hb'
      rw [dif_pos hp]
      exact ih
    · next hne => exact absurd hb (hne _ _ ha)
  | closed h hab hba hl hx =>
    rw [supertype, if_neg h.unequal, if_neg h.uneager, Run.bind_of_ok hab, Run.bind_of_ok hba]
    simp only [Bool.and_self, Bool.false_eq_true, if_false]
    rw [if_pos hl, Run.bind_of_ok (outcome_expandBoth _ _), hx]
    rfl
  | kinds h hab hba hl hs =>
    rw [supertype, if_neg h.unequal, if_neg h.uneager, Run.bind_of_ok hab, Run.bind_of_ok hba]
    simp only [Bool.and_self, Bool.false_eq_true, if_false]
    rw [if_neg (by simp [hl])]
    exact hs

/-! ## Sound types are joined -/

/-- Kinds that are neither aggregates nor enums have a type without further parts. -/
theorem exists_ofKind {k : Kind} (hv : k.isValid = true) (ha : k.isAggregate = false) (he : k ≠ .enum) :
    ∃ t, Ty.ofKind k = .ok t := by
  cases k with
  | invalid | beyond => cases hv
  | record | table | lazyRecord | lazyTable | file | largeImage => cases ha
  | enum => exact absurd rfl he
  | _ => exact ⟨_, rfl⟩

theorem ends_mutualBound (a b : Ty) : (mutualBound a b).Ends := by
  unfold mutualBound
  split
  · next h =>
    obtain ⟨hv, ha, he⟩ := Kind.of_isOpaque h.2.2
    exact Run.ends_bind (exists_ofKind hv ha he) fun _ _ => Run.ends_pure _
  · split <;> exact Run.ends_pure _

/-- The kind from which a sound type climbs the hierarchy is a kind of types. -/
theorem isValid_chainKind (h : a.isValid = true) : a.chainKind.isValid = true := by
  unfold Ty.chainKind
  split
  · next he => exact (Kind.of_isPrimitive (Ty.superkind_isPrimitive h he)).1
  · exact Ty.kind_isValid h

theorem ends_joinKinds (b : Ty) (h : a.isValid = true) : (joinKinds a b).Ends := by
  unfold joinKinds
  dsimp only
  split
  · exact Run.ends_pure _
  · next hk =>
    simp only [not_or] at hk
    have hv := Kind.isValid_join (isValid_chainKind h) b.chainKind
    exact Run.ends_bind (exists_ofKind hv (by simpa using hk.1) hk.2.1) fun _ _ => Run.ends_pure _

theorem hasProvider_of_lazy {t : Ty} (h : t.Sound) (hl : t.isLazy = true) : t.hasProvider = true :=
  Ty.Everywhere.here h.provided hl

theorem hasProvider_of_either_lazy (ha : a.Sound) (hb : b.Sound) (hl : (a.isLazy || b.isLazy) = true) :
    a.hasProvider = true ∨ b.hasProvider = true :=
  (Bool.or_eq_true_iff.1 hl).imp (hasProvider_of_lazy ha) (hasProvider_of_lazy hb)

theorem exists_expansions (h : bothExpand a b = true) : ∃ ea eb, a.expansion? = some ea ∧ b.expansion? = some eb := by
  simp only [bothExpand, Bool.and_eq_true, Option.isSome_iff_exists] at h
  obtain ⟨⟨-, ea, hea⟩, eb, heb⟩ := h
  exact ⟨ea, eb, hea, heb⟩

/-- Two expansions weigh less than the types together, if a provider was asked. -/
theorem weight_add_expansions {ea eb : Ty} (ha : a.expansion? = some ea) (hb : b.expansion? = some eb)
    (hp : a.hasProvider = true ∨ b.hasProvider = true) : ea.weight + eb.weight < a.weight + b.weight := by
  have hwa := Ty.weight_expansion? ha
  have hwb := Ty.weight_expansion? hb
  unfold Ty.hasProvider at hp
  rcases hp with hp | hp
  · rw [if_pos hp] at hwa
    omega
  · rw [if_pos hp] at hwb
    omega

/-- A relation between sound types that stays on the way to their supertype, where all checks that are made end. -/
structure Joinable (c : Checker) (R : Ty → Ty → Prop) : Prop where
  sound : ∀ {a b : Ty}, R a b → a.Sound ∧ b.Sound
  decides : ∀ {a b : Ty}, R a b → Unshared a b →
    (c.exactly.Fits a b ∨ c.exactly.Refuses a b) ∧ (c.exactly.Fits b a ∨ c.exactly.Refuses b a)
  field : ∀ {a b : Ty}, R a b → a.equal b = false → (a.isEager && b.isEager) = true → a.kind = b.kind →
    ∀ e ∈ a.fields, ∀ f, NameMap.find? b.fields e.1 = some f → R e.2 f
  expansion : ∀ {a b ea eb : Ty}, R a b → Unshared a b → c.exactly.Refuses a b → c.exactly.Refuses b a →
    (a.isLazy || b.isLazy) = true → bothExpand a b = true → a.expansion? = some ea → b.expansion? = some eb → R ea eb

/-- Types in such a relation are joined. -/
theorem Joinable.exists_joins {R : Ty → Ty → Prop} (hc : c.Joinable R) (h : R a b) : ∃ s, c.Joins a b s := by
  induction hn : a.weight + b.weight using Nat.strongRecOn generalizing a b with
  | ind n ih =>
    by_cases hequal : a.equal b = true
    · exact ⟨_, .equal hequal⟩
    have hunequal : a.equal b = false := by simpa using hequal
    by_cases heager : (a.isEager && b.isEager) = true
    · obtain ⟨hea, heb⟩ := Bool.and_eq_true_iff.1 heager
      by_cases hkind : a.kind = b.kind
      · obtain ⟨shape, optional, fields, hform⟩ := Ty.isEager_iff.1 hea
        have hsup : ∀ e ∈ a.fields, ∃ s, ∀ f, NameMap.find? b.fields e.1 = some f → c.Joins e.2 f s := by
          intro e he
          cases hf : NameMap.find? b.fields e.1 with
          | none => exact ⟨Ty.error, fun f hf' => by cases hf'⟩
          | some f =>
            have hwa := Ty.weight_lt_of_mem_parts (Ty.mem_parts_of_mem_fields he)
            have hwb : f.weight < b.weight :=
              Ty.weight_lt_of_mem_parts (Ty.mem_parts_of_mem_fields (NameMap.mem_of_find? hf))
            obtain ⟨s, hs⟩ := ih (e.2.weight + f.weight) (by omega) (hc.field h hunequal heager hkind e he f hf) rfl
            refine ⟨s, fun f' hf' => ?_⟩
            cases hf'
            exact hs
        have : Nonempty Ty := ⟨.error⟩
        choose! sup hsup using hsup
        exact ⟨_, .shared hunequal heb hform hkind sup hsup⟩
      · exact ⟨_, .apart hunequal hea heb hkind⟩
    have hu : Unshared a b := ⟨hequal, heager⟩
    obtain ⟨hab | hab, hba | hba⟩ := hc.decides h hu
    · obtain ⟨s, hs⟩ := ends_mutualBound a b
      exact ⟨s, .either hu hab hba hs⟩
    · exact ⟨_, .left hu hab hba⟩
    · exact ⟨_, .right hu hab hba⟩
    obtain ⟨ha, hb⟩ := hc.sound h
    cases hl : a.isLazy || b.isLazy with
    | false =>
      obtain ⟨s, hs⟩ := ends_joinKinds b ha.valid
      exact ⟨s, .kinds hu hab hba hl hs⟩
    | true =>
      cases hx : bothExpand a b with
      | false => exact ⟨_, .closed hu hab hba hl hx⟩
      | true =>
        obtain ⟨ea, eb, hea, heb⟩ := exists_expansions hx
        have hp := hasProvider_of_either_lazy ha hb hl
        have hweight : ea.weight + eb.weight < n := hn ▸ weight_add_expansions hea heb hp
        obtain ⟨s, hs⟩ := ih _ hweight (hc.expansion h hu hab hba hl hx hea heb) rfl
        exact ⟨s, .expanded hu hab hba hl hx hea heb hp hs⟩

theorem Covers.joinable {K : Ty → Prop} (hc : c.Covers K) : c.Joinable fun a b => K a ∧ K b where
  sound h := ⟨hc.sound h.1, hc.sound h.2⟩
  decides h _ := ⟨hc.decidesExactly h.1 h.2, hc.decidesExactly h.2 h.1⟩
  field h _ _ _ _ he _ hf :=
    ⟨hc.part h.1 (Ty.mem_parts_of_mem_fields he), hc.part h.2 (Ty.mem_parts_of_mem_fields (NameMap.mem_of_find? hf))⟩
  expansion h _ _ _ _ _ hea heb := ⟨hc.expansion h.1 hea, hc.expansion h.2 heb⟩

/-- Types that are covered are joined. -/
theorem Covers.exists_joins {K : Ty → Prop} (hc : c.Covers K) (ha : K a) (hb : K b) : ∃ s, c.Joins a b s :=
  hc.joinable.exists_joins ⟨ha, hb⟩

/-- Sound types are joined. -/
theorem exists_joins (hc : c.Answers) (ha : a.Sound) (hb : b.Sound) : ∃ s, c.Joins a b s :=
  hc.covers.exists_joins ha hb

/-! ## What comes out is joined -/

/-- A run that ends made its checks and went on in runs that end. -/
theorem joinable_of_ends (c : Checker) : c.Joinable fun a b => a.Sound ∧ b.Sound ∧ (c.supertype a b).Ends where
  sound h := ⟨h.1, h.2.1⟩
  decides := by
    rintro a b ⟨-, -, s, hs⟩ hu
    rw [supertype, if_neg hu.unequal, if_neg hu.uneager] at hs
    obtain ⟨ab, hab, hs⟩ := Run.bind_eq_ok_iff.1 hs
    obtain ⟨ba, hba, -⟩ := Run.bind_eq_ok_iff.1 hs
    exact ⟨fits_or_refuses_of_accepts hab, fits_or_refuses_of_accepts hba⟩
  field := by
    rintro a b ⟨ha, hb, s, hs⟩ hunequal heager hk e he f hf
    refine ⟨ha.part (Ty.mem_parts_of_mem_fields he), hb.part (Ty.mem_parts_of_mem_fields (NameMap.mem_of_find? hf)), ?_⟩
    rw [supertype, if_neg (by simp [hunequal]), if_pos heager, if_neg (not_not.2 hk)] at hs
    obtain ⟨fields, hfields, -⟩ := Run.bind_eq_ok_iff.1 hs
    have hends := Run.ends_of_collectAlong hfields e he
    split at hends
    · next f' hf' =>
      rw [hf] at hf'
      cases hf'
      obtain ⟨kept, hkept⟩ := hends
      obtain ⟨s, hs, -⟩ := Run.bind_eq_ok_iff.1 hkept
      exact ⟨s, hs⟩
    · next hnone =>
      rw [hf] at hnone
      cases hnone
  expansion := by
    rintro a b ea eb ⟨ha, hb, s, hs⟩ hu hab hba hl hx hea heb
    refine ⟨sound_expansion ha hea, sound_expansion hb heb, s, ?_⟩
    rw [supertype, if_neg hu.unequal, if_neg hu.uneager, Run.bind_of_ok hab, Run.bind_of_ok hba] at hs
    simp only [Bool.and_self, Bool.false_eq_true, if_false] at hs
    rw [if_pos hl, Run.bind_of_ok (outcome_expandBoth _ _), hx, if_pos rfl] at hs
    split at hs
    · next ea' eb' hea' heb' =>
      rw [hea] at hea'
      rw [heb] at heb'
      cases hea'
      cases heb'
      rwa [dif_pos (hasProvider_of_either_lazy ha hb hl)] at hs
    · next hne => exact absurd heb (hne _ _ hea)

/-- Sound types are joined if their supertype comes out. -/
theorem exists_joins_of_ends (ha : a.Sound) (hb : b.Sound) (h : (c.supertype a b).Ends) : ∃ s, c.Joins a b s :=
  (joinable_of_ends c).exists_joins ⟨ha, hb, h⟩

/-- The supertype of sound types comes from the rules, if there is one. -/
theorem joins_of_supertype (ha : a.Sound) (hb : b.Sound) (h : (c.supertype a b).outcome = .ok s) : c.Joins a b s := by
  obtain ⟨s', hs'⟩ := exists_joins_of_ends ha hb ⟨s, h⟩
  have hsame := supertype_of_joins hs'
  rw [h] at hsame
  cases hsame
  exact hs'

end Checker

end FormulaTypes
