import FormulaTypes.Proofs.Checker.EqualResults
import FormulaTypes.Proofs.Checker.LeastBound

/-!
# Supertypes do not depend on the grouping

Types made of plain values, untyped data and eager aggregates have one supertype however they are grouped
(`exists_supertype_grouping`). `Blends ts s` says what it is, of any number of types at once: the least kind over all
of theirs, and, if this is an aggregate, the fields that all of them have and whose kinds have a kind over them other
than `error`. Then

* a supertype of a blend of some types and a blend of further types blends them all (`blends_of_joins`): a field that
  is dropped on the way has no kind over it but `error`, and more types do not give it one;
* types have one blend only (`equal_of_blends`).

`error` may come up on the way, and stays.
-/

namespace FormulaTypes

/-! ## Kinds -/

namespace Kind

variable {v1 : Bool} {k l u : Kind}

/-- Plain values, untyped data and eager aggregates. Blobs count if no plain kind accepts another. -/
def isPlain (v1 : Bool) : Kind → Bool
  | .blob => v1
  | .untypedObject => true
  | k => k.isPrimitive || (k.isAggregate && !k.isLazy)

theorem isSimple_of_isPlain (h : k.isPlain v1 = true) : k.isSimple v1 = true := by
  cases k <;> first | rfl | exact h

theorem of_isPlain (h : k.isPlain v1 = true) : k ≠ .error ∧ k ≠ .objNull := by
  constructor <;> rintro rfl <;> cases h

theorem eq_error_of_isOver (h : u.IsOver .error) : u = .error := h.elim List.mem_singleton.1 id

/-- What is over a plain kind is plain, or `error`. -/
theorem isPlain_of_isOver (hk : k.isPlain v1 = true) (h : u.IsOver k) : u = .error ∨ u.isPlain v1 = true := by
  have hall : k.isPlain v1 = true → (k.line.all fun x => x = .error || x.isPlain v1) = true := by
    cases v1 <;> cases k <;> first | decide | exact fun h => by cases h
  rcases h with h | h
  · simpa using List.all_eq_true.1 (hall hk) u h
  · exact .inl h

/-- An aggregate kind is over itself only. -/
theorem eq_of_isOver_aggregate (hu : u.isAggregate = true) (h : u.IsOver k) : k = u := by
  have hall : (k.ancestors.all fun x => !x.isAggregate) = true := by
    cases k <;> rfl
  rcases h with h | rfl
  · rcases List.mem_cons.1 h with h | h
    · exact h.symm
    · have := List.all_eq_true.1 hall u h
      rw [hu] at this
      cases this
  · cases hu

theorem eq_of_join_isAggregate (h : (k.join l).isAggregate = true) : k = k.join l ∧ l = k.join l := by
  obtain ⟨hk, hl⟩ := isOver_join_iff.1 (k.join l).isOver_self
  exact ⟨eq_of_isOver_aggregate h hk, eq_of_isOver_aggregate h hl⟩

/-- Different aggregate kinds have no join but `error`. -/
theorem join_of_isAggregate (hk : k.isAggregate = true) (hl : l.isAggregate = true) (hne : k ≠ l) :
    k.join l = .error := by
  cases k <;>
    first
    | exact absurd hk Bool.false_ne_true
    | cases l <;> first | rfl | exact absurd hl Bool.false_ne_true | exact absurd rfl hne

/-- Blobs aside, what accepts a kind stands above it. -/
theorem mem_line_of_widens (hk : k.isSimple false = true) (h : u.widens k = true) : u ∈ k.line := by
  unfold widens at h
  split at h <;> first | decide | cases hk | cases h

end Kind

/-- A kind that accepts a simple kind is their join. -/
theorem Rules.join_of_kindAccepts {r : Rules} {u k : Kind} (hlegacy : r.legacyDateTime = false)
    (hk : k.isSimple r.v1 = true) (h : r.kindAccepts u k = true) : u.join k = u := by
  simp only [kindAccepts, hlegacy, Bool.and_false, Bool.or_false, Bool.or_eq_true, Bool.and_eq_true,
    Bool.not_eq_true', decide_eq_true_eq] at h
  rcases h with rfl | ⟨hv, hwidens⟩
  · exact u.join_self
  · rw [hv] at hk
    exact Kind.join_of_mem_line (Kind.mem_line_of_widens hk hwidens)

/-- Tokens have a key in common if both have it. -/
theorem Token.map_key_common_eq_some {s t : Option Token} {key : Bytes} :
    (Token.common s t).map Token.key = some key ↔ s.map Token.key = some key ∧ t.map Token.key = some key := by
  cases s with
  | none => simp [Token.common]
  | some x =>
    cases t with
    | none => simp [Token.common, Token.same]
    | some y =>
      by_cases h : x.key = y.key
      · simp [Token.common, Token.same, h]
      · simp only [Token.common, Token.same, Option.isSome_some, h, decide_false, Bool.and_false, Bool.false_eq_true,
          if_false, Option.map_none, Option.map_some, Option.some.injEq, reduceCtorEq, false_iff, not_and]
        rintro rfl hy
        exact h hy.symm

/-- The token of a type is what it has in common with an equal one. -/
theorem Token.same_common_of_same {s t : Option Token} (h : Token.same s t = true) :
    Token.same s (Token.common s t) = true := by
  rw [Token.same_iff] at h ⊢
  refine Option.ext fun key => ?_
  rw [map_key_common_eq_some, ← h, and_self]

namespace Ty

variable {v1 : Bool} {ts us : List Ty} {a b s s' t : Ty}

/-! ## Plain types -/

/-- The type is made of plain values, untyped data and eager aggregates. -/
def Plain (v1 : Bool) (t : Ty) : Prop := t.Everywhere fun u => u.kind.isPlain v1 = true

instance (v1 : Bool) (t : Ty) : Decidable (t.Plain v1) := Everywhere.decidable t

/-- What supertypes of plain types are: sound, and plain or `error`. -/
structure Bound (v1 : Bool) (t : Ty) : Prop where
  sound : t.Sound
  plain : t.kind = .error ∨ t.Plain v1

namespace Bound

theorem isSimple (h : t.Bound v1) : t.kind.isSimple v1 = true := by
  rcases h.plain with he | hp
  · rw [he]
    rfl
  · exact Kind.isSimple_of_isPlain (Everywhere.here hp)

theorem ne_objNull (h : t.Bound v1) : t.kind ≠ .objNull := by
  rcases h.plain with he | hp
  · rw [he]
    decide
  · exact (Kind.of_isPlain (Everywhere.here hp)).2

/-- `error` has no parts. -/
theorem simple (h : t.Bound v1) : t.Simple v1 := by
  rcases h.plain with he | hp
  · obtain ⟨hk, hform⟩ := exists_leaf he (by decide) rfl rfl
    refine .intro h.isSimple fun part hpart => ?_
    rw [parts, hform] at hpart
    cases hpart
  · exact Everywhere.imp hp fun _ => Kind.isSimple_of_isPlain

/-- The fields of a plain aggregate are plain. -/
theorem field (h : t.Bound v1) (he : t.isEager = true) {name : Bytes} {f : Ty}
    (hf : NameMap.find? t.fields name = some f) : f.Bound v1 ∧ f.kind ≠ .error := by
  have hpart := mem_parts_of_mem_fields (NameMap.mem_of_find? hf)
  have hp : t.Plain v1 := by
    refine h.plain.resolve_left fun herror => ?_
    rw [isEager, herror] at he
    cases he
  exact ⟨⟨h.sound.part hpart, .inr (Everywhere.part hp hpart)⟩, (Kind.of_isPlain (Everywhere.part hp hpart).here).1⟩

end Bound

theorem isEager_eq_of_kind_eq (h : s.kind = t.kind) : s.isEager = t.isEager := by
  rw [isEager, isEager, h]

/-- Types of one kind, plain or `error`, are equal if they agree field by field. -/
theorem equal_of_fieldwise (hs : s.Bound v1) (ht : t.Bound v1) (hk : s.kind = t.kind)
    (h : s.isEager = true → s.optional = t.optional ∧ Token.same s.token t.token = true ∧
      ∀ name, Option.Rel Equal (NameMap.find? s.fields name) (NameMap.find? t.fields name)) : s.Equal t := by
  cases he : s.isEager with
  | true =>
    obtain ⟨hoptional, htoken, hfields⟩ := h he
    have halike := NameMap.paired_of_find? hs.sound.ordered_fields ht.sound.ordered_fields hfields
    exact equal_of_isEager he ((isEager_eq_of_kind_eq hk).symm.trans he) hk hoptional htoken halike
  | false =>
    obtain ⟨-, -, -, henum, hlazy, hsealed⟩ := Kind.of_isSimple hs.isSimple
    have haggregate : s.kind.isAggregate = false := by
      rw [isEager, hlazy] at he
      simpa using he
    exact equal_of_kind_eq hs.sound ht.sound hk henum hsealed haggregate

/-! ## Blends -/

/-- What some types have under a name. -/
def under (ts : List Ty) (name : Bytes) : List Ty := ts.filterMap fun t => NameMap.find? t.fields name

theorem under_append (ts us : List Ty) (name : Bytes) : under (ts ++ us) name = under ts name ++ under us name :=
  List.filterMap_append

theorem mem_under {name : Bytes} (ht : t ∈ ts) {f : Ty} (hf : NameMap.find? t.fields name = some f) :
    f ∈ under ts name :=
  List.mem_filterMap.2 ⟨t, ht, hf⟩

/-- All of some types have a field of a name. -/
def AllHave (ts : List Ty) (name : Bytes) : Prop := ∀ t ∈ ts, ∃ f, NameMap.find? t.fields name = some f

theorem allHave_append {name : Bytes} : AllHave (ts ++ us) name ↔ AllHave ts name ∧ AllHave us name :=
  List.forall_mem_append

/-- `s` is the least kind over the kinds of all of some types. -/
def LeastKind (ts : List Ty) (s : Ty) : Prop := ∀ u : Kind, u.IsOver s.kind ↔ ∀ t ∈ ts, u.IsOver t.kind

/-- `s` is what plain types have in common: the least kind over all of theirs and, if it is an aggregate, the fields
that all have and whose kinds have a kind over them. -/
inductive Blends : List Ty → Ty → Prop
  | flat {ts : List Ty} {s : Ty} (kind : LeastKind ts s) (he : s.isEager = false) : Blends ts s
  | aggregate {ts : List Ty} {s : Ty} (kind : LeastKind ts s) (he : s.isEager = true)
      (optional : s.optional = true ↔ ∃ t ∈ ts, t.optional = true)
      (token : ∀ key : Bytes, s.token.map Token.key = some key ↔ ∀ t ∈ ts, t.token.map Token.key = some key)
      (kept : ∀ name g, NameMap.find? s.fields name = some g → AllHave ts name ∧ g.kind ≠ .error)
      (fields : ∀ name g, NameMap.find? s.fields name = some g → Blends (under ts name) g)
      (dropped : ∀ name, NameMap.find? s.fields name = none → AllHave ts name →
        ∀ u : Kind, (∀ f ∈ under ts name, u.IsOver f.kind) → u = .error) : Blends ts s

theorem Blends.leastKind (h : Blends ts s) : LeastKind ts s := by
  cases h <;> assumption

theorem Blends.field (h : Blends ts s) (he : s.isEager = true) {name : Bytes} {g : Ty}
    (hg : NameMap.find? s.fields name = some g) : Blends (under ts name) g := by
  cases h with
  | flat _ hf => rw [he] at hf; cases hf
  | aggregate _ _ _ _ _ fields _ => exact fields name g hg

/-- Blends do not look at sources. -/
theorem Blends.withSourcesOf (h : Blends ts s) (u : Ty) : Blends ts (s.withSourcesOf u) := by
  obtain ⟨form, token, sources⟩ := s
  cases h with
  | flat kind he => exact .flat kind he
  | aggregate kind he optional token kept fields dropped =>
    exact .aggregate kind he optional token kept fields dropped

theorem leastKind_append (ha : LeastKind ts a) (hb : LeastKind us b) (hk : s.kind = a.kind.join b.kind) :
    LeastKind (ts ++ us) s := by
  intro u
  rw [hk, Kind.isOver_join_iff, ha u, hb u, List.forall_mem_append]

/-- A plain type is its own blend. -/
theorem blends_self (ht : t.Bound v1) : Blends [t] t := by
  induction t using Ty.induction with
  | step t ih =>
    have hkind : LeastKind [t] t := fun u => by simp
    cases he : t.isEager with
    | false => exact .flat hkind he
    | true =>
      refine .aggregate hkind he (by simp) (fun key => by simp) (fun name g hg => ?_) (fun name g hg => ?_)
        fun name hg hall => ?_
      · exact ⟨by simpa [AllHave] using ⟨g, hg⟩, (ht.field he hg).2⟩
      · have hunder : under [t] name = [g] := List.filterMap_cons_some hg
        rw [hunder]
        exact ih g (mem_parts_of_mem_fields (NameMap.mem_of_find? hg)) (ht.field he hg).1
      · obtain ⟨f, hf⟩ := hall t List.mem_cons_self
        rw [hf] at hg
        cases hg

/-- An aggregate blends what two aggregates of its kind blend, if it has the fields of both that have a kind over
them. -/
theorem blends_append (ha : Blends ts a) (hb : Blends us b) (he : s.isEager = true) (hk : s.kind = a.kind.join b.kind)
    (hoptional : s.optional = (a.optional || b.optional))
    (htoken : Token.same s.token (Token.common a.token b.token) = true)
    (hkept : ∀ name g, NameMap.find? s.fields name = some g → g.kind ≠ .error ∧ Blends (under (ts ++ us) name) g ∧
      ∃ fa fb, NameMap.find? a.fields name = some fa ∧ NameMap.find? b.fields name = some fb)
    (hdropped : ∀ name, NameMap.find? s.fields name = none → ∀ fa fb, NameMap.find? a.fields name = some fa →
      NameMap.find? b.fields name = some fb → fa.kind.join fb.kind = .error) : Blends (ts ++ us) s := by
  have hkind := leastKind_append ha.leastKind hb.leastKind hk
  have haggregate : s.kind.isAggregate = true := (of_isEager he).1
  obtain ⟨hka, hkb⟩ := Kind.eq_of_join_isAggregate (hk ▸ haggregate)
  have hea : a.isEager = true := (isEager_eq_of_kind_eq (hka.trans hk.symm)).trans he
  have heb : b.isEager = true := (isEager_eq_of_kind_eq (hkb.trans hk.symm)).trans he
  cases ha with
  | flat _ h => rw [hea] at h; cases h
  | aggregate _ _ hoptionala htokena hkepta hfieldsa hdroppeda =>
    cases hb with
    | flat _ h => rw [heb] at h; cases h
    | aggregate _ _ hoptionalb htokenb hkeptb hfieldsb hdroppedb =>
      refine .aggregate hkind he ?_ (fun key => ?_) (fun name g hg => ?_) (fun name g hg => (hkept name g hg).2.1)
        fun name hg hall u hu => ?_
      · rw [hoptional, Bool.or_eq_true, hoptionala, hoptionalb]
        simp only [List.mem_append, or_and_right, exists_or]
      · rw [Token.same_iff.1 htoken, Token.map_key_common_eq_some, htokena, htokenb, List.forall_mem_append]
      · obtain ⟨hne, -, fa, fb, hfa, hfb⟩ := hkept name g hg
        exact ⟨allHave_append.2 ⟨(hkepta name fa hfa).1, (hkeptb name fb hfb).1⟩, hne⟩
      · rw [under_append, List.forall_mem_append] at hu
        rw [allHave_append] at hall
        -- what one of the two has dropped has no kind over it, and more types do not give it one
        cases hfa : NameMap.find? a.fields name with
        | none => exact hdroppeda name hfa hall.1 u hu.1
        | some fa =>
          cases hfb : NameMap.find? b.fields name with
          | none => exact hdroppedb name hfb hall.2 u hu.2
          | some fb =>
            have hover : u.IsOver (fa.kind.join fb.kind) := by
              rw [Kind.isOver_join_iff, (hfieldsa name fa hfa).leastKind u, (hfieldsb name fb hfb).leastKind u]
              exact hu
            rw [hdropped name hg fa fb hfa hfb] at hover
            exact Kind.eq_error_of_isOver hover

/-- Of two equal blends the first one blends what both do. -/
theorem blends_of_equal (ht : a.Bound v1) (h : a.Equal b) (ha : Blends ts a) (hb : Blends us b) :
    Blends (ts ++ us) a := by
  induction a using Ty.induction generalizing b ts us with
  | step a ih =>
    have hk : a.kind = a.kind.join b.kind := by rw [← kind_eq_of_equal h, Kind.join_self]
    cases he : a.isEager with
    | false => exact .flat (leastKind_append ha.leastKind hb.leastKind hk) he
    | true =>
      have hfields : NameMap.Paired Equal a.fields b.fields := fieldsAlike_of_equal h
      refine blends_append ha hb he hk ?_ ?_ (fun name g hg => ?_) fun name hg fa fb hfa => ?_
      · rw [← optional_eq_of_equal h, Bool.or_self]
      · exact Token.same_common_of_same (alike_of_equal h).2
      · have hfound := hfields.find? name
        rw [hg] at hfound
        generalize hf : NameMap.find? b.fields name = found at hfound
        cases hfound with
        | @some _ f hequal =>
          obtain ⟨hbound, hne⟩ := ht.field he hg
          have heb : b.isEager = true := (isEager_congr h).symm.trans he
          rw [under_append]
          exact ⟨hne, ih g (mem_parts_of_mem_fields (NameMap.mem_of_find? hg)) hbound hequal (ha.field he hg)
            (hb.field heb hf), g, f, hg, rfl⟩
      · rw [hg] at hfa
        cases hfa

/-- Types have one blend. -/
theorem equal_of_blends (hs : s.Bound v1) (hs' : s'.Bound v1) (h : Blends ts s) (h' : Blends ts s') : s.Equal s' := by
  induction s using Ty.induction generalizing s' ts with
  | step s ih =>
    have hk : s.kind = s'.kind := Kind.eq_of_isOver_iff fun u => (h.leastKind u).trans (h'.leastKind u).symm
    refine equal_of_fieldwise hs hs' hk fun he => ?_
    have he' : s'.isEager = true := (isEager_eq_of_kind_eq hk).symm.trans he
    cases h with
    | flat _ hf => rw [he] at hf; cases hf
    | aggregate _ _ hoptional htoken hkept hfields hdropped =>
      cases h' with
      | flat _ hf => rw [he'] at hf; cases hf
      | aggregate _ _ hoptional' htoken' hkept' hfields' hdropped' =>
        refine ⟨Bool.eq_iff_iff.2 (hoptional.trans hoptional'.symm), ?_, fun name => ?_⟩
        · exact Token.same_iff.2 (Option.ext fun key => (htoken key).trans (htoken' key).symm)
        -- the kind of a field that only one of the two has would be over those of all types
        cases hg : NameMap.find? s.fields name with
        | none =>
          cases hg' : NameMap.find? s'.fields name with
          | none => exact .none
          | some g' =>
            obtain ⟨hall, hne⟩ := hkept' name g' hg'
            exact absurd (hdropped name hg hall _ (((hfields' name g' hg').leastKind _).1 (Kind.isOver_self _))) hne
        | some g =>
          cases hg' : NameMap.find? s'.fields name with
          | none =>
            obtain ⟨hall, hne⟩ := hkept name g hg
            exact absurd (hdropped' name hg' hall _ (((hfields name g hg).leastKind _).1 (Kind.isOver_self _))) hne
          | some g' =>
            exact .some (ih g (mem_parts_of_mem_fields (NameMap.mem_of_find? hg)) (hs.field he hg).1
              (hs'.field he' hg').1 (hfields name g hg) (hfields' name g' hg'))

/-- What blends plain types is plain, or `error`. -/
theorem bound_of_blends (hne : ts ≠ []) (hts : ∀ t ∈ ts, t.Bound v1) (hs : s.Sound) (h : Blends ts s) :
    s.Bound v1 := by
  induction s using Ty.induction generalizing ts with
  | step s ih =>
    refine ⟨hs, ?_⟩
    obtain ⟨t, ht⟩ := List.exists_mem_of_ne_nil ts hne
    have hover : s.kind.IsOver t.kind := (h.leastKind _).1 s.kind.isOver_self t ht
    by_cases herror : s.kind = .error
    · exact .inl herror
    have hplain : s.kind.isPlain v1 = true := by
      rcases (hts t ht).plain with he | hp
      · rw [he] at hover
        exact absurd (Kind.eq_error_of_isOver hover) herror
      · exact (Kind.isPlain_of_isOver (Everywhere.here hp) hover).resolve_left herror
    refine .inr (.intro hplain fun part hpart => ?_)
    rcases Checker.eager_or_leaf (Kind.isSimple_of_isPlain hplain) with ⟨_, _, fields, hform⟩ | ⟨_, _, hform⟩
    · have he : s.isEager = true := isEager_iff.2 ⟨_, _, _, hform⟩
      obtain ⟨e, hmem, rfl⟩ : ∃ e ∈ s.fields, e.2 = part := by
        rw [parts, hform] at hpart
        rw [Ty.fields, hform]
        exact List.mem_map.1 hpart
      have hg := NameMap.find?_of_mem hs.ordered_fields hmem
      cases h with
      | flat _ hf => rw [he] at hf; cases hf
      | aggregate hkind _ _ _ hkept hfields _ =>
        obtain ⟨hall, hfield⟩ := hkept e.1 e.2 hg
        refine (ih e.2 hpart ?_ (fun f hf => ?_) (hs.part hpart) (hfields e.1 e.2 hg)).plain.resolve_left hfield
        · obtain ⟨f, hf⟩ := hall t ht
          exact List.ne_nil_of_mem (mem_under ht hf)
        · obtain ⟨t', ht', hf⟩ := List.mem_filterMap.1 hf
          have hover := (hkind _).1 s.kind.isOver_self t' ht'
          have heager := isEager_eq_of_kind_eq (Kind.eq_of_isOver_aggregate (of_isEager he).1 hover)
          exact ((hts t' ht').field (heager.trans he) hf).1
    · rw [parts, hform] at hpart
      cases hpart

end Ty

namespace Checker

open Ty (Blends)

variable {c : Checker} {ts us : List Ty} {a b s : Ty}

/-! ## Joins -/

/-- What accepts a type is of the join of the two kinds. -/
theorem join_of_fits (hlegacy : c.rules.legacyDateTime = false) (ha : a.Bound c.rules.v1) (hb : b.Bound c.rules.v1)
    (h : c.Fits a b) : a.kind.join b.kind = a.kind := by
  rw [fits_simple_iff ha.isSimple hb.isSimple] at h
  rcases h.resolve_left hb.ne_objNull with herror | ⟨haccepts, -⟩
  · rw [herror, Kind.error_join]
  · exact Rules.join_of_kindAccepts hlegacy hb.isSimple haccepts

/-- Types that are not both eager aggregates have no aggregate over them. -/
theorem Unshared.isAggregate_join {v1 : Bool} (hu : Unshared a b) (ha : a.kind.isSimple v1 = true) :
    (a.kind.join b.kind).isAggregate = false := by
  rw [Bool.eq_false_iff]
  intro hg
  obtain ⟨hka, hkb⟩ := Kind.eq_of_join_isAggregate hg
  have heager : a.isEager = true := by
    rw [Ty.isEager, (Kind.of_isSimple ha).2.2.2.2.1, hka, hg]
    rfl
  exact hu.uneager (by rw [heager, ← Ty.isEager_eq_of_kind_eq (hka.trans hkb.symm), heager]; rfl)

/-- Where the hierarchy joins two plain types is the join of their kinds. -/
theorem kind_joinKinds {v1 : Bool} (ha : a.kind.isSimple v1 = true) (hb : b.kind.isSimple v1 = true)
    (hu : Unshared a b) (h : (joinKinds a b).outcome = .ok s) : s.kind = a.kind.join b.kind := by
  obtain ⟨-, -, -, hae, -, -⟩ := Kind.of_isSimple ha
  obtain ⟨-, -, -, hbe, -, -⟩ := Kind.of_isSimple hb
  obtain ⟨-, -, -, henum, -, hsealed⟩ := Kind.of_isSimple (Kind.isSimple_join ha (l := b.kind))
  rw [joinKinds, Ty.chainKind, if_neg hae, Ty.chainKind, if_neg hbe,
    if_neg (by simp [hu.isAggregate_join ha, henum, hsealed])] at h
  obtain ⟨t, ht, h⟩ := Run.bind_eq_ok_iff.1 h
  cases h
  rw [Ty.kind_withSourcesOf, Ty.kind_withSourcesOf, (kind_ofKind ht).1]

/-- The supertype of two plain types is of the join of their kinds. -/
theorem kind_of_joins (hlegacy : c.rules.legacyDateTime = false) (ha : a.Bound c.rules.v1) (hb : b.Bound c.rules.v1)
    (h : c.Joins a b s) : s.kind = a.kind.join b.kind := by
  have hfits : ∀ {x y : Ty}, x.Bound c.rules.v1 → y.Bound c.rules.v1 → c.exactly.Fits x y →
      x.kind = x.kind.join y.kind :=
    fun hx hy hxy => (join_of_fits (c := c.exactly) hlegacy hx hy hxy).symm
  cases h with
  | equal h => rw [Ty.kind_withSourcesOf, ← Ty.kind_eq_of_equal h, Kind.join_self]
  | apart _ hea heb hk => exact (Kind.join_of_isAggregate (Ty.of_isEager hea).1 (Ty.of_isEager heb).1 hk).symm
  | shared _ _ hform hk => rw [← hk, Kind.join_self, Ty.kind_of_form hform]; rfl
  | either _ hab hba hs =>
    have hsealed := (Kind.of_isSimple ha.isSimple).2.2.2.2.2
    rw [mutualBound, if_neg (by simp [hsealed])] at hs
    split at hs <;> cases hs
    · rw [Ty.kind_withSourcesOf, ← hfits ha hb hab]
    · rw [Ty.kind_withSourcesOf, Kind.join_comm, ← hfits hb ha hba]
  | left _ hab => rw [Ty.kind_withSourcesOf, ← hfits ha hb hab]
  | right _ _ hba => rw [Ty.kind_withSourcesOf, Kind.join_comm, ← hfits hb ha hba]
  | expanded _ _ _ hl | closed _ _ _ hl =>
    have hla := (Kind.of_isSimple ha.isSimple).2.2.2.2.1
    have hlb := (Kind.of_isSimple hb.isSimple).2.2.2.2.1
    rw [Ty.isLazy, Ty.isLazy, hla, hlb] at hl
    cases hl
  | kinds hu _ _ _ hs => exact kind_joinKinds ha.isSimple hb.isSimple hu hs

/-- The supertype of two blends blends what both do. -/
theorem blends_of_joins (hlegacy : c.rules.legacyDateTime = false) (ha : a.Bound c.rules.v1) (hb : b.Bound c.rules.v1)
    (h : c.Joins a b s) (hts : Blends ts a) (hus : Blends us b) : Blends (ts ++ us) s := by
  have hk := kind_of_joins hlegacy ha hb h
  have hkind := Ty.leastKind_append hts.leastKind hus.leastKind hk
  induction h generalizing ts us with
  | @equal a b h => exact (Ty.blends_of_equal ha h hts hus).withSourcesOf b
  | apart => exact .flat hkind rfl
  | @shared a b _ heb shape optional fields hform hkab sup hsup ih =>
    have hea : a.isEager = true := Ty.isEager_iff.2 ⟨_, _, _, hform⟩
    refine Ty.blends_append hts hus (Ty.isEager_iff.2 ⟨_, _, _, rfl⟩) hk rfl (Token.same_self _) (fun name g hg => ?_)
      fun name hg fa fb hfa hfb => ?_
    · obtain ⟨e, he, f, hf, heq, hne⟩ := Ty.mem_sharedFields_iff.1 (NameMap.mem_of_find? hg)
      cases heq
      have hfe := NameMap.find?_of_mem ha.sound.ordered_fields he
      have hbe := (ha.field hea hfe).1
      have hbf := (hb.field heb hf).1
      have hte := hts.field hea hfe
      have huf := hus.field heb hf
      have hkind := kind_of_joins hlegacy hbe hbf (hsup e he f hf)
      rw [Ty.under_append]
      exact ⟨hne, ih e he f hf hbe hbf hte huf hkind (Ty.leastKind_append hte.leastKind huf.leastKind hkind), e.2, f,
        hfe, hf⟩
    · have hfound : Ty.sharedField b sup (name, fa) = none := by
        have := Ty.find?_sharedFields (b := b) ha.sound.ordered_fields sup name
        rw [hfa, Option.bind_some] at this
        exact this.symm.trans hg
      have herror : (sup (name, fa)).kind = .error := by
        rw [Ty.sharedField, hfb] at hfound
        simpa using hfound
      rw [← herror]
      exact (kind_of_joins hlegacy (ha.field hea hfa).1 (hb.field heb hfb).1
        (hsup _ (NameMap.mem_of_find? hfa) fb hfb)).symm
  | either hu | left hu | right hu | expanded hu | closed hu | kinds hu =>
    refine .flat hkind ?_
    rw [Ty.isEager, hk, hu.isAggregate_join ha.isSimple]
    rfl

/-- The supertype of two plain types, or `error`, is there, is such a type and blends what both blend. -/
theorem exists_supertype_blends (hlegacy : c.rules.legacyDateTime = false) (ha : a.Bound c.rules.v1)
    (hb : b.Bound c.rules.v1) :
    ∃ s, (c.supertype a b).outcome = .ok s ∧ s.Bound c.rules.v1 ∧
      ∀ {ts us : List Ty}, Blends ts a → Blends us b → Blends (ts ++ us) s := by
  obtain ⟨s, hs⟩ := (c.covers_simple c.rules.v1).exists_joins ⟨ha.sound, ha.simple⟩ ⟨hb.sound, hb.simple⟩
  refine ⟨s, supertype_of_joins hs, ?_, fun hts hus => blends_of_joins hlegacy ha hb hs hts hus⟩
  have hblends := blends_of_joins hlegacy ha hb hs (Ty.blends_self ha) (Ty.blends_self hb)
  refine Ty.bound_of_blends (List.cons_ne_nil a [b]) (fun t ht => ?_) (sound_of_joins hs ha.sound hb.sound) hblends
  rcases List.mem_cons.1 ht with rfl | ht
  · exact ha
  · rwa [List.mem_singleton.1 ht]

/-! ## Groupings -/

/-- A way to take the supertype of some types, two at a time. -/
inductive Grouping where
  | type (t : Ty)
  | join (left right : Grouping)

namespace Grouping

/-- The types in their order. -/
def types : Grouping → List Ty
  | .type t => [t]
  | .join left right => left.types ++ right.types

/-- The supertype that the grouping asks for. -/
def supertype (c : Checker) : Grouping → Run Ty
  | .type t => pure t
  | .join left right => do
    let a ← left.supertype c
    let b ← right.supertype c
    c.supertype a b

theorem supertype_join_eq_ok_iff {left right : Grouping} :
    ((Grouping.join left right).supertype c).outcome = .ok s ↔
      ∃ a b, (left.supertype c).outcome = .ok a ∧ (right.supertype c).outcome = .ok b ∧
        (c.supertype a b).outcome = .ok s := by
  rw [supertype, Run.bind_eq_ok_iff]
  simp only [Run.bind_eq_ok_iff, exists_and_left]

/-- The supertype of plain types is there in every grouping, and blends them. -/
theorem exists_blends (hlegacy : c.rules.legacyDateTime = false) (g : Grouping)
    (h : ∀ t ∈ g.types, t.Sound ∧ t.Plain c.rules.v1) :
    ∃ s, (g.supertype c).outcome = .ok s ∧ s.Bound c.rules.v1 ∧ Blends g.types s := by
  induction g with
  | type t =>
    obtain ⟨hsound, hplain⟩ := h t List.mem_cons_self
    have hbound : t.Bound c.rules.v1 := ⟨hsound, .inr hplain⟩
    exact ⟨t, rfl, hbound, Ty.blends_self hbound⟩
  | join left right ihl ihr =>
    rw [types, List.forall_mem_append] at h
    obtain ⟨a, hleft, hboundl, hblendsl⟩ := ihl h.1
    obtain ⟨b, hright, hboundr, hblendsr⟩ := ihr h.2
    obtain ⟨s, hs, hbound, hblends⟩ := exists_supertype_blends hlegacy hboundl hboundr
    exact ⟨s, supertype_join_eq_ok_iff.2 ⟨a, b, hleft, hright, hs⟩, hbound, hblends hblendsl hblendsr⟩

/-- The supertypes of plain types in two groupings are there and are equal. -/
theorem exists_equal (hlegacy : c.rules.legacyDateTime = false) (g g' : Grouping) (htypes : g.types = g'.types)
    (h : ∀ t ∈ g.types, t.Sound ∧ t.Plain c.rules.v1) :
    ∃ l r, (g.supertype c).outcome = .ok l ∧ (g'.supertype c).outcome = .ok r ∧ l.equal r = true := by
  obtain ⟨l, hl, hboundl, hblendsl⟩ := g.exists_blends hlegacy h
  obtain ⟨r, hr, hboundr, hblendsr⟩ := g'.exists_blends hlegacy (htypes ▸ h)
  exact ⟨l, r, hl, hr, Ty.equal_of_blends hboundl hboundr hblendsl (htypes ▸ hblendsr)⟩

end Grouping

/-- **Supertypes of plain types are associative**: those of three types in both groupings are there and are equal, and
so are those of any number of types in any two groupings. -/
theorem exists_supertype_grouping (hlegacy : c.rules.legacyDateTime = false) :
    (∀ a b d : Ty, (∀ t ∈ [a, b, d], t.Sound ∧ t.Plain c.rules.v1) →
      ∃ ab bd l r, (c.supertype a b).outcome = .ok ab ∧ (c.supertype b d).outcome = .ok bd ∧
        (c.supertype ab d).outcome = .ok l ∧ (c.supertype a bd).outcome = .ok r ∧ l.equal r = true) ∧
    ∀ g g' : Grouping, g.types = g'.types → (∀ t ∈ g.types, t.Sound ∧ t.Plain c.rules.v1) →
      ∃ l r, (g.supertype c).outcome = .ok l ∧ (g'.supertype c).outcome = .ok r ∧ l.equal r = true := by
  refine ⟨fun a b d h => ?_, Grouping.exists_equal hlegacy⟩
  obtain ⟨l, r, hl, hr, hequal⟩ := Grouping.exists_equal hlegacy (.join (.join (.type a) (.type b)) (.type d))
    (.join (.type a) (.join (.type b) (.type d))) rfl h
  obtain ⟨ab, _, hab, hd, hl⟩ := Grouping.supertype_join_eq_ok_iff.1 hl
  obtain ⟨_, _, ha, hb, hab⟩ := Grouping.supertype_join_eq_ok_iff.1 hab
  obtain ⟨_, bd, ha', hbd, hr⟩ := Grouping.supertype_join_eq_ok_iff.1 hr
  obtain ⟨_, _, hb', hd', hbd⟩ := Grouping.supertype_join_eq_ok_iff.1 hbd
  cases ha
  cases hb
  cases hd
  cases ha'
  cases hb'
  cases hd'
  exact ⟨ab, bd, l, r, hab, hbd, hl, hr, hequal⟩

/-- A record of a record of one field. -/
def nestedRecord (k : Kind) : Ty := recordWith true (recordWith false (.ofForm (Ty.bareForm k)))

/-- Of images, media and numbers only the first two have a kind over them. -/
theorem exists_supertype_grouping_nested :
    plainChecker.rules.legacyDateTime = false ∧
      (∀ t ∈ [nestedRecord .penImage, nestedRecord .media, nestedRecord .number],
        t.Sound ∧ t.Plain plainChecker.rules.v1) ∧
      (∃ ab bd l r, (plainChecker.supertype (nestedRecord .penImage) (nestedRecord .media)).outcome = .ok ab ∧
        (plainChecker.supertype (nestedRecord .media) (nestedRecord .number)).outcome = .ok bd ∧
        (plainChecker.supertype ab (nestedRecord .number)).outcome = .ok l ∧
        (plainChecker.supertype (nestedRecord .penImage) bd).outcome = .ok r ∧ l.equal r = true) ∧
      ∃ l r, ((Grouping.join (.join (.type (nestedRecord .penImage)) (.type (nestedRecord .media)))
          (.type (nestedRecord .number))).supertype plainChecker).outcome = .ok l ∧
        ((Grouping.join (.type (nestedRecord .penImage)) (.join (.type (nestedRecord .media))
          (.type (nestedRecord .number)))).supertype plainChecker).outcome = .ok r ∧ l.equal r = true := by
  have hplain : ∀ t ∈ [nestedRecord .penImage, nestedRecord .media, nestedRecord .number],
      t.Sound ∧ t.Plain plainChecker.rules.v1 := by decide +kernel
  obtain ⟨hthree, hgroupings⟩ := exists_supertype_grouping (c := plainChecker) rfl
  exact ⟨rfl, hplain, hthree _ _ _ hplain, hgroupings _ _ rfl hplain⟩

end Checker

end FormulaTypes
