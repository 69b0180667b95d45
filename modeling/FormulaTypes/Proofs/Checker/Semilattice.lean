import FormulaTypes.Proofs.Checker.Associative
import FormulaTypes.Proofs.Checker.UnionLaws
import FormulaTypes.Proofs.Checker.Validity

/-!
# Intersections as greatest lower bounds

Without lazy types, enums, and opaque types that carry something, types are ordered by what is taken away from them:
`r.Trims a` says that `r` is `a` with fields and tokens left out, at any depth, and with more aggregates optional.
`error` is put below everything (`Below`), but only at the top: inside of an aggregate it is a type like others, and
what two aggregates do not have in common is not there at all.

In this order the intersection of two types is their greatest lower bound (`below_iff_of_overlaps`), and types below
each other are equal (`Ty.equal_of_below`). So intersections do not depend on the order and grouping of types, and
taking a type twice makes no difference (`exists_intersection_laws`).
-/

namespace FormulaTypes

namespace Ty

variable {a b r t : Ty}

/-! ## Types without payload -/

/-- No type in the type is lazy, an enum, or an opaque type with a token or with fields. -/
def PayloadFree (t : Ty) : Prop :=
  t.Everywhere fun u => u.isLazy = false ∧ u.kind ≠ .enum ∧ (u.kind.isOpaque = true → u.token = none ∧ u.fields = [])

instance (t : Ty) : Decidable t.PayloadFree := Everywhere.decidable t

theorem PayloadFree.withSourcesOf (h : t.PayloadFree) (u : Ty) : (t.withSourcesOf u).PayloadFree := by
  obtain ⟨form, token, sources⟩ := t
  cases h with
  | intro here below => exact .intro here below

theorem payloadFree_aggregate {shape : Shape} {optional : Bool} {fields : NameMap Ty} {token : Option Token}
    {sources : NameSet} (h : ∀ e ∈ fields, e.2.PayloadFree) :
    (Ty.node (.aggregate shape optional fields) token sources).PayloadFree := by
  have heager : (Ty.node (.aggregate shape optional fields) token sources).isEager = true :=
    isEager_iff.2 ⟨_, _, _, rfl⟩
  obtain ⟨-, -, henum, hsealed⟩ := kind_of_isEager heager
  refine .intro ⟨(of_isEager heager).2, henum, by simp [hsealed]⟩ fun part hpart => ?_
  obtain ⟨e, he, rfl⟩ := List.mem_map.1 hpart
  exact h e he

theorem payloadFree_error : error.PayloadFree := .intro ⟨rfl, by decide, by decide⟩ (List.forall_mem_nil _)

/-- The type is sound and without payload. -/
structure Regular (t : Ty) : Prop where
  sound : t.Sound
  payloadFree : t.PayloadFree

namespace Regular

theorem field (h : t.Regular) {name : Bytes} {f : Ty} (hf : NameMap.find? t.fields name = some f) : f.Regular := by
  have hpart := mem_parts_of_mem_fields (NameMap.mem_of_find? hf)
  exact ⟨h.sound.part hpart, Everywhere.part h.payloadFree hpart⟩

theorem isLazy (h : t.Regular) : t.isLazy = false := (Everywhere.here h.payloadFree).1

/-- Aggregates aside, types without payload are no more than their kinds. -/
theorem equal_of_kind_eq (ha : a.Regular) (hb : b.Regular) (hk : a.kind = b.kind) (hg : a.isAggregate = false) :
    a.equal b = true := by
  obtain ⟨-, henum, hbare⟩ := Everywhere.here ha.payloadFree
  cases ho : a.kind.isOpaque with
  | false => exact Ty.equal_of_kind_eq ha.sound hb.sound hk henum ho hg
  | true =>
    have ho' : b.kind.isOpaque = true := hk ▸ ho
    obtain ⟨htoken, hfields⟩ := hbare ho
    obtain ⟨htoken', hfields'⟩ := (Everywhere.here hb.payloadFree).2.2 ho'
    rw [equal_iff_of_isOpaque ho' hk, htoken, htoken', hfields, hfields']
    exact ⟨rfl, .nil⟩

end Regular

/-! ## The order -/

/-- `r` is what is left of `a` without some of its fields and tokens, and with more aggregates optional. -/
inductive Trims : Ty → Ty → Prop
  | intro {r a : Ty} (kind : r.kind = a.kind) (optional : a.optional = true → r.optional = true)
      (token : ∀ key : Bytes, r.token.map Token.key = some key → a.token.map Token.key = some key)
      (names : ∀ name g, NameMap.find? r.fields name = some g → ∃ f, NameMap.find? a.fields name = some f)
      (fields : ∀ name g f, NameMap.find? r.fields name = some g → NameMap.find? a.fields name = some f →
        Trims g f) : Trims r a

theorem trims_iff :
    r.Trims a ↔ r.kind = a.kind ∧ (a.optional = true → r.optional = true) ∧
      (∀ key : Bytes, r.token.map Token.key = some key → a.token.map Token.key = some key) ∧
      ∀ name g, NameMap.find? r.fields name = some g → ∃ f, NameMap.find? a.fields name = some f ∧ g.Trims f := by
  constructor
  · rintro ⟨kind, optional, token, names, fields⟩
    refine ⟨kind, optional, token, fun name g hg => ?_⟩
    obtain ⟨f, hf⟩ := names name g hg
    exact ⟨f, hf, fields name g f hg hf⟩
  · rintro ⟨kind, optional, token, fields⟩
    refine .intro kind optional token (fun name g hg => ?_) fun name g f hg hf => ?_
    · obtain ⟨f, hf, -⟩ := fields name g hg
      exact ⟨f, hf⟩
    · obtain ⟨f', hf', htrims⟩ := fields name g hg
      rw [hf] at hf'
      cases hf'
      exact htrims

theorem Trims.kind (h : r.Trims a) : r.kind = a.kind := (trims_iff.1 h).1

theorem trims_self (t : Ty) : t.Trims t := by
  induction t using Ty.induction with
  | step t ih =>
    refine trims_iff.2 ⟨rfl, id, fun _ => id, fun name g hg => ⟨g, hg, ?_⟩⟩
    exact ih g (mem_parts_of_mem_fields (NameMap.mem_of_find? hg))

theorem Trims.of_equal (hr : r.Trims a) (h : a.Equal b) : r.Trims b := by
  induction hr generalizing b with
  | @intro r a kind optional token names _ ih =>
    have hfields : NameMap.Paired Equal a.fields b.fields := fieldsAlike_of_equal h
    refine trims_iff.2 ⟨kind.trans (kind_eq_of_equal h), fun hb => ?_, fun key hkey => ?_, fun name g hg => ?_⟩
    · exact optional ((optional_eq_of_equal h).trans hb)
    · rw [← Token.same_iff.1 (alike_of_equal h).2]
      exact token key hkey
    · obtain ⟨f, hf⟩ := names name g hg
      have hfound := hfields.find? name
      rw [hf] at hfound
      generalize NameMap.find? b.fields name = found at hfound
      cases hfound with
      | some hequal => exact ⟨_, rfl, ih name g f hg hf hequal⟩

/-- Types without payload that trim each other are equal. -/
theorem equal_of_trims (ha : a.Regular) (hb : b.Regular) (hab : a.Trims b) (hba : b.Trims a) : a.Equal b := by
  induction hab with
  | @intro a b kind optional token names _ ih =>
    cases hg : a.isAggregate with
    | false => exact ha.equal_of_kind_eq hb kind hg
    | true =>
      obtain ⟨-, optional', token', fields'⟩ := trims_iff.1 hba
      have hea := isEager_of_not_lazy hg ha.isLazy
      have hfields : ∀ name, Option.Rel Equal (NameMap.find? a.fields name) (NameMap.find? b.fields name) := by
        intro name
        cases hga : NameMap.find? a.fields name with
        | none =>
          cases hgb : NameMap.find? b.fields name with
          | none => exact .none
          | some g =>
            obtain ⟨f, hf, -⟩ := fields' name g hgb
            rw [hga] at hf
            cases hf
        | some g =>
          obtain ⟨f, hf⟩ := names name g hga
          obtain ⟨g', hg', htrims⟩ := fields' name f hf
          rw [hga] at hg'
          cases hg'
          rw [hf]
          exact .some (ih name g f hga hf (ha.field hga) (hb.field hf) htrims)
      exact equal_of_isEager hea ((isEager_eq_of_kind_eq kind).symm.trans hea) kind
        (Bool.eq_iff_iff.2 ⟨optional', optional⟩) (Token.same_iff.2 (Option.ext fun key => ⟨token key, token' key⟩))
        (NameMap.paired_of_find? ha.sound.ordered_fields hb.sound.ordered_fields hfields)

/-- `r` is `error`, or what is left of `a`. -/
def Below (r a : Ty) : Prop := r.kind = .error ∨ r.Trims a

theorem below_self (t : Ty) : t.Below t := .inr (trims_self t)

theorem below_congr (h : a.Equal b) : r.Below a ↔ r.Below b :=
  or_congr_right ⟨fun hr => hr.of_equal h, fun hr => hr.of_equal (equal_symm h)⟩

/-- What is below `error` is `error`. -/
theorem below_error_iff (ha : a.kind = .error) : r.Below a ↔ r.kind = .error :=
  or_iff_left_of_imp fun h => h.kind.trans ha

/-- Types without payload that are below each other are equal. -/
theorem equal_of_below (ha : a.Regular) (hb : b.Regular) (hab : a.Below b) (hba : b.Below a) : a.Equal b := by
  by_cases herror : a.kind = .error
  · have hk : a.kind = b.kind := herror.trans ((below_error_iff herror).1 hba).symm
    exact ha.equal_of_kind_eq hb hk (by rw [isAggregate, herror]; rfl)
  · have htrims := hab.resolve_left herror
    exact equal_of_trims ha hb htrims (hba.resolve_left (htrims.kind ▸ herror))

/-- A type without payload is known by what is below it. -/
theorem equal_of_below_iff (ha : a.Regular) (hb : b.Regular) (h : ∀ t : Ty, t.Below a ↔ t.Below b) : a.Equal b :=
  equal_of_below ha hb ((h a).1 a.below_self) ((h b).2 b.below_self)

/-! ## Fields in common -/

/-- What is kept of two fields is the greatest that trims both, if there is any. -/
theorem trims_commonField_iff {name : Bytes} {g f f' : Ty} {meet : Bytes × Ty → Ty}
    (hf' : NameMap.find? b.fields name = some f') (hrf : f.Regular) (hrf' : f'.Regular)
    (hmeet : (f.isAggregate && f'.isAggregate) = true → (g.Below (meet (name, f)) ↔ g.Below f ∧ g.Below f')) :
    (∃ m, commonField b meet (name, f) = some m ∧ g.Trims m) ↔ g.Trims f ∧ g.Trims f' := by
  simp only [commonField_eq_some_iff, hf', Option.some.injEq, exists_eq_left']
  constructor
  · rintro ⟨m, ⟨hboth, hne, rfl⟩ | ⟨hboth, hk, hm⟩, hg⟩
    · have hge : g.kind ≠ .error := by rwa [hg.kind]
      obtain ⟨h, h'⟩ := (hmeet hboth).1 (.inr hg)
      exact ⟨h.resolve_left hge, h'.resolve_left hge⟩
    · have haggregate : f.isAggregate = false := by
        rwa [isAggregate, isAggregate, ← hk, Bool.and_self] at hboth
      rw [hm] at hg
      exact ⟨hg, hg.of_equal (hrf.equal_of_kind_eq hrf' hk haggregate)⟩
  · rintro ⟨h, h'⟩
    cases hboth : f.isAggregate && f'.isAggregate with
    | false => exact ⟨f, .inr ⟨rfl, h.kind.symm.trans h'.kind, rfl⟩, h⟩
    | true =>
      -- aggregates are not `error`, nor is what trims them
      have hge : g.kind ≠ .error := by
        rw [h.kind]
        intro herror
        rw [isAggregate, herror] at hboth
        cases hboth
      have hg := ((hmeet hboth).2 ⟨.inr h, .inr h'⟩).resolve_left hge
      exact ⟨_, .inl ⟨rfl, hg.kind ▸ hge, rfl⟩, hg⟩

/-- An aggregate made of what two aggregates have in common is trimmed by what trims both, if its fields are. -/
theorem trims_aggregate_iff {shape : Shape} {fields : NameMap Ty}
    (hka : shape.kind = a.kind) (hkb : shape.kind = b.kind)
    (hfields : ∀ (name : Bytes) (g : Ty), (∃ m, NameMap.find? fields name = some m ∧ g.Trims m) ↔
      (∃ f, NameMap.find? a.fields name = some f ∧ g.Trims f) ∧
        ∃ f, NameMap.find? b.fields name = some f ∧ g.Trims f) :
    r.Trims (.ofForm₂ (.aggregate shape (a.optional || b.optional) fields) (Token.common a.token b.token) a b) ↔
      r.Trims a ∧ r.Trims b := by
  simp only [trims_iff (r := r)]
  constructor
  · rintro ⟨kind, optional, token, fields⟩
    have hfound := fun name g hg => (hfields name g).1 (fields name g hg)
    have hkey := fun key h => Token.map_key_common_eq_some.1 (token key h)
    refine ⟨⟨kind.trans hka, fun ho => optional ?_, fun key h => (hkey key h).1, fun name g hg => (hfound name g hg).1⟩,
      ⟨kind.trans hkb, fun ho => optional ?_, fun key h => (hkey key h).2, fun name g hg => (hfound name g hg).2⟩⟩
    · exact Bool.or_eq_true_iff.2 (.inl ho)
    · exact Bool.or_eq_true_iff.2 (.inr ho)
  · rintro ⟨⟨kind, optional, token, fields⟩, ⟨-, optional', token', fields'⟩⟩
    refine ⟨kind.trans hka.symm, fun ho => (Bool.or_eq_true_iff.1 ho).elim optional optional', fun key h => ?_,
      fun name g hg => (hfields name g).2 ⟨fields name g hg, fields' name g hg⟩⟩
    exact Token.map_key_common_eq_some.2 ⟨token key h, token' key h⟩

end Ty

namespace Checker

variable {c : Checker} {a b d m r : Ty}

/-! ## Greatest lower bounds -/

/-- What two types without payload have in common has none. -/
theorem payloadFree_of_overlaps (h : Overlaps a b m) (ha : a.Regular) (hb : b.Regular) : m.PayloadFree := by
  induction h with
  | equal | leaf => exact ha.payloadFree.withSourcesOf _
  | expanded _ hl | closed _ hl =>
    rw [ha.isLazy, hb.isLazy] at hl
    cases hl
  | apart => exact Ty.payloadFree_error
  | @shared a b _ _ shape _ _ _ _ meet _ ih =>
    refine Ty.payloadFree_aggregate fun g hg => ?_
    obtain ⟨e, he, f, hf, -, hcase⟩ := Ty.of_mem_commonFields hg
    have hre := ha.field (NameMap.find?_of_mem ha.sound.ordered_fields he)
    rcases hcase with ⟨hboth, hge⟩ | ⟨-, -, hge⟩
    · rw [hge]
      exact ih e he f hf hboth hre (hb.field hf)
    · rw [hge]
      exact hre.payloadFree

/-- What two types without payload have in common is their greatest lower bound. -/
theorem below_iff_of_overlaps (h : Overlaps a b m) (ha : a.Regular) (hb : b.Regular) :
    r.Below m ↔ r.Below a ∧ r.Below b := by
  induction h generalizing r with
  | @equal a b h => rw [Ty.below_congr (Ty.equal_withSourcesOf a b), ← Ty.below_congr h, and_self]
  | expanded _ hl | closed _ hl =>
    rw [ha.isLazy, hb.isLazy] at hl
    cases hl
  | @apart a b _ _ hk =>
    rw [Ty.below_error_iff rfl]
    refine ⟨fun herror => ⟨.inl herror, .inl herror⟩, ?_⟩
    rintro ⟨herror | hra, herror | hrb⟩
    · exact herror
    · exact herror
    · exact herror
    · exact absurd (hra.kind.symm.trans hrb.kind) hk
  | leaf h hk hg =>
    rw [ha.equal_of_kind_eq hb hk hg] at h
    cases h
  | @shared a b _ _ shape optional fields hform hk meet _ ih =>
    by_cases herror : r.kind = .error
    · exact iff_of_true (.inl herror) ⟨.inl herror, .inl herror⟩
    have hka := (Ty.kind_of_form hform).symm
    simp only [Ty.Below, herror, false_or]
    refine Ty.trims_aggregate_iff hka (hka.trans hk) fun name g => ?_
    rw [Ty.find?_commonFields ha.sound.ordered_fields]
    cases hf : NameMap.find? a.fields name with
    | none => simp
    | some f =>
      cases hf' : NameMap.find? b.fields name with
      | none => simp [Ty.commonField, hf']
      | some f' =>
        have hiff := Ty.trims_commonField_iff (g := g) hf' (ha.field hf) (hb.field hf') fun hboth =>
          ih (name, f) (NameMap.mem_of_find? hf) f' hf' hboth (ha.field hf) (hb.field hf')
        simpa using hiff

/-- The intersection of types without payload is there, is one, and is their greatest lower bound. -/
theorem exists_intersection_below (c : Checker) (ha : a.Regular) (hb : b.Regular) :
    ∃ m, (c.intersection a b).outcome = .ok m ∧ m.Regular ∧ ∀ t : Ty, t.Below m ↔ t.Below a ∧ t.Below b := by
  obtain ⟨m, hm⟩ := exists_overlaps ha.sound hb.sound
  have hregular : m.Regular := ⟨sound_of_overlaps hm ha.sound hb.sound, payloadFree_of_overlaps hm ha hb⟩
  exact ⟨m, intersection_of_overlaps hm, hregular, fun t => below_iff_of_overlaps hm ha hb⟩

/-- **Intersections of types without payload form a semilattice.** They are there and, up to equality, do not depend on
the order and on the grouping of types, and that of a type with itself is this type. -/
theorem exists_intersection_laws (h : ∀ t ∈ [a, b, d], t.Sound ∧ t.PayloadFree) :
    (∃ r, (c.intersection a a).outcome = .ok r ∧ r.equal a = true) ∧
    (∃ l r, (c.intersection a b).outcome = .ok l ∧ (c.intersection b a).outcome = .ok r ∧ l.equal r = true) ∧
    ∃ ab bd l r, (c.intersection a b).outcome = .ok ab ∧ (c.intersection b d).outcome = .ok bd ∧
      (c.intersection ab d).outcome = .ok l ∧ (c.intersection a bd).outcome = .ok r ∧ l.equal r = true := by
  have hregular : ∀ t ∈ [a, b, d], t.Regular := fun t ht => ⟨(h t ht).1, (h t ht).2⟩
  simp only [List.forall_mem_cons] at hregular
  obtain ⟨ha, hb, hd, -⟩ := hregular
  obtain ⟨ab, hab, hrab, hbab⟩ := exists_intersection_below c ha hb
  refine ⟨?_, ?_, ?_⟩
  · obtain ⟨r, hr, hrr, hbr⟩ := exists_intersection_below c ha ha
    refine ⟨r, hr, Ty.equal_of_below_iff hrr ha fun t => ?_⟩
    rw [hbr, and_self]
  · obtain ⟨ba, hba, hrba, hbba⟩ := exists_intersection_below c hb ha
    refine ⟨ab, ba, hab, hba, Ty.equal_of_below_iff hrab hrba fun t => ?_⟩
    rw [hbab, hbba, and_comm]
  · obtain ⟨bd, hbd, hrbd, hbbd⟩ := exists_intersection_below c hb hd
    obtain ⟨l, hl, hrl, hbl⟩ := exists_intersection_below c hrab hd
    obtain ⟨r, hr, hrr, hbr⟩ := exists_intersection_below c ha hrbd
    refine ⟨ab, bd, l, r, hab, hbd, hl, hr, Ty.equal_of_below_iff hrl hrr fun t => ?_⟩
    rw [hbl, hbab, hbr, hbbd, and_assoc]

/-- A table with an aggregate, a plain type and an entity in it. -/
def tableOf (shape : Shape) (plain : Kind) (optional : Bool) (entity : Option Token) : Ty :=
  .node (.aggregate .table optional
    [(Bytes.ofString "A", .node (.aggregate shape false [(Bytes.ofString "V", .ofForm (Ty.bareForm .number))])
       entity ∅),
     (Bytes.ofString "B", .ofForm (Ty.bareForm plain)),
     (Bytes.ofString "C", .ofForm (Ty.bareForm .dataEntity))]) entity ∅

/-- A token. -/
def firstToken : Option Token := some ⟨Bytes.ofString "t", none⟩

/-- A token other than `firstToken`. -/
def secondToken : Option Token := some ⟨Bytes.ofString "u", none⟩

/-- The three have different tokens, and neither their aggregates nor their plain types are all of one kind. -/
theorem exists_intersection_laws_tables :
    (∀ t ∈ [tableOf .record .error true firstToken, tableOf .record .error false secondToken,
      tableOf .file .number false none], t.Sound ∧ t.PayloadFree) ∧
      ∀ c : Checker, ∃ ab bd l r,
        (c.intersection (tableOf .record .error true firstToken)
          (tableOf .record .error false secondToken)).outcome = .ok ab ∧
        (c.intersection (tableOf .record .error false secondToken)
          (tableOf .file .number false none)).outcome = .ok bd ∧
        (c.intersection ab (tableOf .file .number false none)).outcome = .ok l ∧
        (c.intersection (tableOf .record .error true firstToken) bd).outcome = .ok r ∧
        l.equal r = true := by
  have h : ∀ t ∈ [tableOf .record .error true firstToken, tableOf .record .error false secondToken,
      tableOf .file .number false none], t.Sound ∧ t.PayloadFree := by decide +kernel
  exact ⟨h, fun c => (exists_intersection_laws h).2.2⟩

end Checker

end FormulaTypes
