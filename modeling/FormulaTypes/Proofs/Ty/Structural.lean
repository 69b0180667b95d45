import FormulaTypes.Proofs.NameMap
import FormulaTypes.Proofs.Ty.Equality
import FormulaTypes.Proofs.Ty.Form
import Mathlib.Logic.Relation

/-!
# What equality means

The tests for equality compare digests and lengths on their way. `Ty.Same` and `Literal.Same` say without them when two
types or literals are the same, and `NameMap.Entrywise` lifts this to maps. Each test decides its relation, each
relation is an equivalence, and what is the same has the same digest (`equality_decides`).
-/

namespace FormulaTypes

open Number (Double)

/-! ## The relations -/

/-- Two zeros are the same number whatever their signs, and so are any two that are not a number. -/
inductive Literal.Same : Literal → Literal → Prop
  | refl (a : Literal) : Same a a
  | zeros {a b : Double} (ha : a.isZero = true) (hb : b.isZero = true) : Same (.number a) (.number b)
  | nans {a b : Double} (ha : a.isNaN = true) (hb : b.isNaN = true) : Same (.number a) (.number b)

/-- Maps with the same names and related values, entry by entry. -/
def NameMap.Entrywise {α : Type} (R : α → α → Prop) (m m' : NameMap α) : Prop :=
  m.names = m'.names ∧ List.Forall₂ (fun e f => R e.2 f.2) m m'

/-- The same literals under the same names. -/
def Values.Same (vs ws : Values) : Prop := NameMap.Entrywise Literal.Same vs.entries ws.entries

/-- What providers are compared by. -/
def Provider.shape {α : Type} (p : Provider α) : Bytes × List Bytes := (p.identity, p.names)

/-- Types that agree in everything but their sources, with tokens compared by their keys and fields on demand by the
shape of their provider. -/
inductive Ty.Same : Ty → Ty → Prop
  | node {t u : Ty} (kind : t.kind = u.kind) (superkind : t.superkind = u.superkind)
      (optional : t.optional = u.optional) (token : t.token.map Token.key = u.token.map Token.key)
      (provider : t.provider?.map Provider.shape = u.provider?.map Provider.shape)
      (names : NameMap.names t.fields = NameMap.names u.fields)
      (fields : List.Forall₂ (fun e f => Same e.2 f.2) t.fields u.fields)
      (values : t.values.Same u.values) : Same t u

/-! ## Parts -/

namespace Number.Double

variable {a b : Double}

/-- Zero is a number. -/
theorem isNaN_of_isZero (h : a.isZero = true) : a.isNaN = false := by
  rw [isZero, decide_eq_true_eq] at h
  rw [isNaN, h]
  decide

@[simp] theorem isNaN_canonical (a : Double) : a.canonical.isNaN = a.isNaN := by
  rw [canonical]
  split
  · next h =>
    rw [h]
    decide
  · split
    · next h =>
      rw [isNaN_of_isZero h]
      decide
    · rfl

@[simp] theorem isZero_canonical (a : Double) : a.canonical.isZero = a.isZero := by
  rw [canonical]
  split
  · next h =>
    cases hz : a.isZero with
    | false => decide
    | true =>
      rw [isNaN_of_isZero hz] at h
      cases h
  · split
    · next h =>
      rw [h]
      decide
    · rfl

/-- Numbers are equal literals if they are one number, both zero or both not a number. -/
theorem same_iff :
    a.same b = true ↔ a = b ∨ (a.isZero = true ∧ b.isZero = true) ∨ (a.isNaN = true ∧ b.isNaN = true) := by
  rw [same, decide_eq_true_eq]
  constructor
  · intro h
    have hnan : a.isNaN = b.isNaN := by rw [← isNaN_canonical, h, isNaN_canonical]
    have hzero : a.isZero = b.isZero := by rw [← isZero_canonical, h, isZero_canonical]
    cases ha : a.isNaN with
    | true => exact .inr (.inr ⟨rfl, hnan ▸ ha⟩)
    | false =>
      cases hz : a.isZero with
      | true => exact .inr (.inl ⟨rfl, hzero ▸ hz⟩)
      | false =>
        rw [canonical, canonical, ← hnan, ← hzero, ha, hz] at h
        exact .inl h
  · rintro (rfl | ⟨ha, hb⟩ | ⟨ha, hb⟩)
    · rfl
    · rw [canonical, canonical, isNaN_of_isZero ha, isNaN_of_isZero hb, ha, hb]
      rfl
    · rw [canonical, canonical, if_pos ha, if_pos hb]

end Number.Double

theorem Literal.same_iff {a b : Literal} : a.same b = true ↔ a.Same b := by
  constructor
  · intro h
    cases a <;> cases b <;> simp only [same, Bool.false_eq_true, decide_eq_true_eq] at h
    case number.number =>
      rcases Double.same_iff.1 h with rfl | ⟨ha, hb⟩ | ⟨ha, hb⟩
      · exact .refl _
      · exact .zeros ha hb
      · exact .nans ha hb
    all_goals
      cases h
      exact .refl _
  · rintro (_ | ⟨ha, hb⟩ | ⟨ha, hb⟩)
    · exact same_self a
    · exact Double.same_iff.2 (.inr (.inl ⟨ha, hb⟩))
    · exact Double.same_iff.2 (.inr (.inr ⟨ha, hb⟩))

theorem Literal.same_equivalence : Equivalence Literal.Same where
  refl := .refl
  symm h := by
    rw [← same_iff, same_symm, same_iff]
    exact h
  trans h k := same_iff.1 (same_trans (same_iff.2 h) (same_iff.2 k))

theorem Token.same_iff {a b : Option Token} : Token.same a b = true ↔ a.map Token.key = b.map Token.key := by
  cases a <;> cases b <;> simp [Token.same]

theorem Provider.sameShape?_iff {p q : Option (Provider Ty)} :
    Provider.sameShape? p q = true ↔ p.map Provider.shape = q.map Provider.shape := by
  cases p <;> cases q <;> simp [Provider.sameShape?, Provider.sameShape, Provider.shape]

namespace NameMap

variable {α : Type} {R S : α → α → Prop}

/-- Names and values may be compared together. -/
theorem entrywise_iff {m m' : NameMap α} :
    Entrywise R m m' ↔ List.Forall₂ (fun e f => e.1 = f.1 ∧ R e.2 f.2) m m' := by
  induction m generalizing m' with
  | nil => cases m' <;> simp [Entrywise, names]
  | cons e m ih =>
    cases m' with
    | nil => simp [Entrywise]
    | cons f m' =>
      rw [List.forall₂_cons, ← ih]
      simp only [Entrywise, names, List.map_cons, List.cons.injEq, List.forall₂_cons]
      constructor
      · rintro ⟨⟨hname, hnames⟩, hvalue, hvalues⟩
        exact ⟨⟨hname, hvalue⟩, hnames, hvalues⟩
      · rintro ⟨⟨hname, hvalue⟩, hnames, hvalues⟩
        exact ⟨⟨hname, hnames⟩, hvalue, hvalues⟩

/-- Only the values that are there matter. -/
theorem entrywise_congr {m m' : NameMap α} (h : ∀ e ∈ m, ∀ a, R e.2 a ↔ S e.2 a) :
    Entrywise R m m' ↔ Entrywise S m m' := by
  rw [entrywise_iff, entrywise_iff]
  induction m generalizing m' with
  | nil => simp
  | cons e m ih =>
    cases m' with
    | nil => simp
    | cons f m' =>
      rw [List.forall₂_cons, List.forall₂_cons, h e List.mem_cons_self, ih fun g hg => h g (List.mem_cons_of_mem _ hg)]

/-- An equivalence of values is one of maps. -/
theorem entrywise_equivalence (h : Equivalence R) : Equivalence (Entrywise R) where
  refl m := ⟨rfl, List.forall₂_same.2 fun e _ => h.refl e.2⟩
  symm hm := ⟨hm.1.symm, hm.2.flip.imp fun _ _ => h.symm⟩
  trans := by
    intro m m' m'' hm hm'
    refine ⟨hm.1.trans hm'.1, ?_⟩
    obtain ⟨-, hm⟩ := hm
    obtain ⟨-, hm'⟩ := hm'
    induction hm generalizing m'' with
    | nil =>
      cases hm'
      exact .nil
    | cons he _ ih =>
      cases hm' with
      | cons hf hr => exact .cons (h.trans he hf) (ih hr)

end NameMap

theorem Values.agree_iff_same {vs ws : Values} : vs.agree ws = true ↔ vs.Same ws := by
  rw [agree_iff, Values.Same, NameMap.entrywise_iff]
  simp only [Literal.same_iff]

theorem Values.same_equivalence : Equivalence Values.Same :=
  (NameMap.entrywise_equivalence Literal.same_equivalence).comap OrderedMap.entries

theorem Values.digest_eq_of_equal {vs ws : Values} (h : vs.equal ws = true) : vs.digest = ws.digest := by
  rw [equal, Bool.and_eq_true, decide_eq_true_eq] at h
  exact h.2

/-! ## Types -/

/-- The kind says which form it is. -/
theorem Form.ctorIdx_eq_of_kind_eq {f g : Form Ty} (h : f.kind = g.kind) : f.ctorIdx = g.ctorIdx := by
  have hindex : ∀ f : Form Ty, f.ctorIdx =
      if f.kind.isLeaf then 0 else if f.kind = .enum then 1 else if f.kind.isLazy then 4
      else if f.kind.isAggregate then 3 else 2 := by
    intro f
    cases f with
    | leaf k hk => exact (if_pos hk).symm
    | enum => rfl
    | choices choice => cases choice <;> rfl
    | aggregate shape => cases shape <;> rfl
    | lazy isTable => cases isTable <;> rfl
  rw [hindex f, hindex g, h]

namespace Ty

variable {t u : Ty}

/-- Forms are alike if they are of one kind and the same is at hand in them. -/
theorem alike_iff :
    Form.Alike t.form u.form ↔ t.kind = u.kind ∧ t.superkind = u.superkind ∧ t.optional = u.optional ∧
      Provider.sameShape? t.provider? u.provider? = true ∧ FieldsAlike t.fields u.fields ∧
      t.values.agree u.values = true := by
  obtain ⟨f, s, _⟩ := t
  obtain ⟨g, s', _⟩ := u
  constructor
  · intro h
    simp only [form] at h
    cases h with
    | leaf => exact ⟨rfl, rfl, rfl, rfl, .nil, rfl⟩
    | enum h => exact ⟨rfl, rfl, rfl, rfl, .nil, h⟩
    | choices h => exact ⟨rfl, rfl, rfl, rfl, h, rfl⟩
    | aggregate h => exact ⟨rfl, rfl, rfl, rfl, h, rfl⟩
    | @lazy isTable _ _ _ h => cases isTable <;> exact ⟨rfl, rfl, rfl, h, .nil, rfl⟩
  · rintro ⟨hkind, hsuper, hoptional, hprovider, hfields, hvalues⟩
    cases f <;> cases g
    case leaf.leaf =>
      cases hkind
      exact .leaf _ _
    case enum.enum =>
      cases hsuper
      exact .enum hvalues
    case choices.choices c _ d _ =>
      obtain rfl : c = d := by cases c <;> cases d <;> first | rfl | cases hkind
      exact .choices hfields
    case aggregate.aggregate x _ _ y _ _ =>
      obtain rfl : x = y := by cases x <;> cases y <;> first | rfl | cases hkind
      cases hoptional
      exact .aggregate hfields
    case lazy.lazy a _ _ b _ _ =>
      obtain rfl : a = b := by cases a <;> cases b <;> first | rfl | cases hkind
      cases hoptional
      exact .lazy hprovider
    all_goals cases Form.ctorIdx_eq_of_kind_eq hkind

/-- Eager aggregates of one kind are equal if they agree in all that is at hand in them. -/
theorem equal_of_isEager (ht : t.isEager = true) (hu : u.isEager = true) (hk : t.kind = u.kind)
    (hoptional : t.optional = u.optional) (htoken : Token.same t.token u.token = true)
    (hfields : FieldsAlike t.fields u.fields) : t.equal u = true := by
  obtain ⟨_, _, _, hform⟩ := isEager_iff.1 ht
  obtain ⟨_, _, _, hform'⟩ := isEager_iff.1 hu
  refine equal_iff.2 ⟨alike_iff.2 ⟨hk, ?_, hoptional, ?_, hfields, ?_⟩, htoken⟩
  · rw [superkind, hform, superkind, hform']
  · rw [provider?, hform, provider?, hform']
    rfl
  · rw [values, hform, values, hform']
    rfl

/-- Equal types are those that are the same. -/
theorem equal_iff_same : t.equal u = true ↔ t.Same u := by
  induction t using Ty.induction generalizing u with
  | step t ih =>
    have hfields : FieldsAlike t.fields u.fields ↔ NameMap.Entrywise Ty.Same t.fields u.fields := by
      rw [FieldsAlike, ← NameMap.entrywise_iff (R := fun a b : Ty => a.equal b = true)]
      exact NameMap.entrywise_congr fun e he a => ih e.2 (mem_parts_of_mem_fields he)
    rw [equal_iff, alike_iff, Token.same_iff, Provider.sameShape?_iff, hfields, Values.agree_iff_same]
    constructor
    · rintro ⟨⟨hkind, hsuper, hoptional, hprovider, ⟨hnames, hsame⟩, hvalues⟩, htoken⟩
      exact .node hkind hsuper hoptional htoken hprovider hnames hsame hvalues
    · rintro ⟨hkind, hsuper, hoptional, htoken, hprovider, hnames, hsame, hvalues⟩
      exact ⟨⟨hkind, hsuper, hoptional, hprovider, ⟨hnames, hsame⟩, hvalues⟩, htoken⟩

theorem same_equivalence : Equivalence Ty.Same where
  refl t := equal_iff_same.1 (equal_self t)
  symm h := equal_iff_same.1 (equal_symm (equal_iff_same.2 h))
  trans h k := equal_iff_same.1 (equal_trans (equal_iff_same.2 h) (equal_iff_same.2 k))

end Ty

/-- Field maps are alike if their types are the same. -/
theorem fieldsAlike_iff {fs gs : NameMap Ty} : FieldsAlike fs gs ↔ NameMap.Entrywise Ty.Same fs gs := by
  rw [NameMap.entrywise_iff]
  simp only [FieldsAlike, Ty.equal_iff_same]

/-! ## The tests -/

/-- A test decides an equivalence, and what it finds equal has the same digest. -/
structure Decides {α : Type} (test : α → α → Bool) (digest : α → UInt64) (R : α → α → Prop) : Prop where
  test_iff : ∀ a b, test a b = true ↔ R a b
  equivalence : Equivalence R
  digest_eq : ∀ a b, test a b = true → digest a = digest b

/-- **Equality is structural**: the digests that the tests compare decide nothing, for types, for field maps and for
named literals. -/
theorem equality_decides :
    Decides Ty.equal Ty.digest Ty.Same ∧
      Decides fieldsEqual fieldsDigest (NameMap.Entrywise Ty.Same) ∧
      Decides Values.equal Values.digest Values.Same := by
  refine ⟨⟨?_, Ty.same_equivalence, ?_⟩, ⟨?_, NameMap.entrywise_equivalence Ty.same_equivalence, ?_⟩,
    ⟨?_, Values.same_equivalence, ?_⟩⟩
  · exact fun t u => Ty.equal_iff_same
  · exact fun t u => Ty.digest_eq_of_equal
  · intro fs gs
    rw [fieldsEqual_iff, fieldsAlike_iff]
  · exact fun fs gs h => fieldsDigest_eq_of_alike (fieldsEqual_iff.1 h)
  · intro vs ws
    rw [Values.equal_eq_agree, Values.agree_iff_same]
  · exact fun vs ws => Values.digest_eq_of_equal

end FormulaTypes
