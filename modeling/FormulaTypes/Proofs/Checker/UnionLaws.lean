import FormulaTypes.Proofs.Checker.Commutative
import FormulaTypes.Proofs.Checker.EqualResults
import FormulaTypes.Proofs.Checker.Merges

/-!
# Laws of unions

* The union of a type with itself is that type, but for opaque types: with their tokens and fields, they are merged to
  the bare kind (`exists_union_self`). Inside of aggregates they are kept, since fields meet at the supertype.
* The unions of two types in either order are equal and both with or both without conflict (`union_comm`), if lazy
  types that accept each other without being equal have different digests. Every rule of `Merges` has its counterpart
  in the other order (`exists_merges_swap`), so that a union comes out in both orders or in none.
-/

namespace FormulaTypes

theorem Token.common_self (t : Option Token) : Token.common t t = t := by
  rw [Token.common, Token.same_self, Bool.and_true]
  cases t <;> rfl

namespace Ty

variable {a t : Ty} {k : Kind}

/-- The bare type of an opaque kind. -/
theorem ofKind_of_isOpaque (h : ofKind k = .ok t) (ho : k.isOpaque = true) :
    t.kind = k ∧ t.token = none ∧ t.fields = [] := by
  cases k <;> first | exact absurd ho Bool.false_ne_true | (cases h; exact ⟨rfl, rfl, rfl⟩)

/-- Opaque types of one kind are equal if they have the same token and the same fields. -/
theorem equal_iff_of_isOpaque (ho : a.kind.isOpaque = true) (hk : t.kind = a.kind) :
    t.equal a = true ↔ Token.same t.token a.token = true ∧ FieldsAlike t.fields a.fields := by
  have hviews : ∀ u : Ty, u.kind.isOpaque = true →
      u.superkind = .invalid ∧ u.optional = false ∧ u.provider? = none ∧ u.values = .empty := by
    intro u hu
    rcases form_of_isOpaque hu with ⟨k, hk, hform⟩ | ⟨choice, fields, hform⟩ <;>
      simp only [superkind, optional, provider?, values, hform, and_self]
  obtain ⟨hsuper, hoptional, hprovider, hvalues⟩ := hviews a ho
  obtain ⟨hsuper', hoptional', hprovider', hvalues'⟩ := hviews t (hk ▸ ho)
  rw [equal_iff, alike_iff, hsuper, hsuper', hoptional, hoptional', hprovider, hprovider', hvalues, hvalues']
  simp [hk, Provider.sameShape?, Values.agree_self, and_comm]

end Ty

namespace Checker

variable {c : Checker} {a b s : Ty} {m : Merge}

open Ty (Equal)

/-! ## A type with itself -/

/-- What stands for a type and itself. -/
theorem exists_mutualBound_self (a : Ty) :
    ∃ s, (mutualBound a a).outcome = .ok s ∧ (a.kind.isOpaque = false → s.Equal a) ∧
      (a.kind.isOpaque = true → s.kind = a.kind ∧ s.token = none ∧ s.fields = []) := by
  cases ho : a.kind.isOpaque with
  | false =>
    refine ⟨a.withSourcesOf a, ?_, fun _ => Ty.equal_withSourcesOf a a, by simp⟩
    rw [mutualBound, if_neg (by simp [ho]), ite_self]
    rfl
  | true =>
    obtain ⟨hv, ha, he⟩ := Kind.of_isOpaque ho
    obtain ⟨t, ht⟩ := exists_ofKind hv ha he
    refine ⟨(t.withSourcesOf a).withSourcesOf a, ?_, by simp, fun _ => ?_⟩
    · rw [mutualBound, if_pos ⟨rfl, rfl, ho⟩]
      exact Run.bind_eq_ok_iff.2 ⟨t, ht, rfl⟩
    · have hform : ((t.withSourcesOf a).withSourcesOf a).form = t.form := by simp [Ty.withSourcesOf]
      rw [Ty.kind_withSourcesOf, Ty.kind_withSourcesOf, Ty.fields_eq_of_form_eq hform]
      simpa [Ty.withSourcesOf] using Ty.ofKind_of_isOpaque ht ho

theorem isExpansionOf_self (a : Ty) : a.isExpansionOf a = false := by
  rw [Bool.eq_false_iff]
  intro h
  rw [isExpansionOf_swap h] at h
  cases h

/-- A field is merged with itself to an equal one. -/
theorem exists_mergesLeaves_self (c : Checker) (a : Ty) :
    ∃ m, c.MergesLeaves a a m ∧ m.clean = true ∧ m.type.Equal a := by
  by_cases hnull : a.kind = .objNull
  · exact ⟨_, .nullLeft hnull, rfl, Ty.equal_self a⟩
  · refine ⟨_, .joined hnull hnull (isExpansionOf_self a) (isExpansionOf_self a) (.equal (Ty.equal_self a)), ?_,
      Ty.equal_withSourcesOf a a⟩
    rw [Ty.kind_withSourcesOf]
    by_cases herror : a.kind = .error <;> simp [herror]

/-- An aggregate of the same fields, as merged with themselves, is equal to it. -/
theorem equal_of_mergedFields {shape : Shape} {optional : Bool} {old : List (Bytes × Ty)}
    (ha : NameMap.Ordered a.fields) (hform : a.form = .aggregate shape optional old) {merge : Bytes × Ty → Merge}
    (h : ∀ e ∈ a.fields, (merge e).type.Equal e.2) :
    (Ty.ofForm₂ (.aggregate shape (a.optional || a.optional) (a.mergedFields a merge))
      (Token.common a.token a.token) a a).Equal a := by
  have hfields : FieldsAlike (a.mergedFields a merge) a.fields := by
    refine NameMap.paired_of_find? (R := Equal) (Ty.ordered_mergedFields ha a merge) ha fun name => ?_
    rw [Ty.find?_mergedFields ha]
    cases hf : NameMap.find? a.fields name with
    | none => exact .none
    | some f => exact .some (h (name, f) (NameMap.mem_of_find? hf))
  rw [Bool.or_self, Token.common_self]
  exact Ty.equal_of_isEager (Ty.isEager_iff.2 ⟨_, _, _, rfl⟩) (Ty.isEager_iff.2 ⟨_, _, _, hform⟩)
    (Ty.kind_of_form hform).symm rfl (Token.same_self a.token) hfields

theorem refuses_void (h : a.kind = .void ∨ b.kind = .void) : c.Refuses a b := by
  rw [Refuses, accepts, check_eq, if_pos h]
  rfl

/-- A type is merged with itself: to an equal type, or to the bare kind if it is opaque. -/
theorem exists_merges_self (ha : a.InOrder) :
    ∃ m, c.Merges a a m ∧ m.clean = true ∧ (a.kind.isOpaque = false → m.type.Equal a) ∧
      (a.kind.isOpaque = true → m.type.kind = a.kind ∧ m.type.token = none ∧ m.type.fields = []) := by
  induction a using Ty.induction with
  | step a ih =>
    by_cases hnull : a.kind = .objNull
    · refine ⟨_, .nullLeft hnull (by rw [hnull]; decide), rfl, fun _ => Ty.equal_withSourcesOf a a, fun ho => ?_⟩
      rw [hnull] at ho
      cases ho
    cases heager : a.isEager with
    | true =>
      obtain ⟨shape, optional, old, hform⟩ := Ty.isEager_iff.1 heager
      have hordered := Ty.ordered_fields_of_form (Ty.Everywhere.here ha)
      have hmerge : ∀ e ∈ a.fields, ∃ m, c.MergesAt a e m ∧ m.clean = true ∧ m.type.Equal e.2 := by
        intro e he
        have hf := NameMap.find?_of_mem hordered he
        have hpart := Ty.mem_parts_of_mem_fields he
        cases he : e.2.isEager with
        | false =>
          obtain ⟨m, hm, hclean, hequal⟩ := exists_mergesLeaves_self c e.2
          exact ⟨m, mergesAt_shared hf (fun _ => hm) (by simp [he]), hclean, hequal⟩
        | true =>
          obtain ⟨m, hm, hclean, hequal, -⟩ := ih e.2 hpart (Ty.Everywhere.part ha hpart)
          exact ⟨m, mergesAt_shared hf (by simp [he]) fun _ => hm, hclean, hequal (Ty.kind_of_isEager he).2.2.2⟩
      obtain ⟨merge, hsame, hmerges⟩ := exists_merges_fields heager hform rfl hmerge
      refine ⟨_, hmerges, ?_, fun _ => equal_of_mergedFields hordered hform fun e he => (hsame e he).2.2, fun ho => ?_⟩
      · exact List.all_eq_true.2 fun e he => (hsame e he).2.1
      · rw [(Ty.kind_of_isEager heager).2.2.2] at ho
        cases ho
    | false =>
      have hu : Unmerged a a := ⟨fun h => hnull h.1, fun h => hnull h.1, by simp [heager]⟩
      by_cases hvoid : a.kind = .void
      · -- `void` does not accept itself
        have hrefuses : c.exactly.Refuses a a := refuses_void (.inl hvoid)
        refine ⟨_, .joined hu hrefuses hrefuses ?_ (.equal (Ty.equal_self a)), ?_,
          fun _ => Ty.equal_withSourcesOf a a, fun ho => ?_⟩
        · rw [Ty.isLazy, hvoid]
          rfl
        · simp [hvoid]
        · rw [hvoid] at ho
          cases ho
      · have hfits : c.exactly.Fits a a := fits_of_equal (Ty.equal_self a) hvoid
        obtain ⟨s, hs, hequal⟩ := exists_mutualBound_self a
        exact ⟨_, .either hu hfits hfits hs, rfl, hequal⟩

/-- The union of a type with itself is there, is without conflict and of its kind, and is equal to it but for opaque
types with a token or with fields: these are merged to the bare kind. -/
theorem exists_union_self (ha : a.Sound) :
    ∃ m, (c.union a a).outcome = .ok m ∧ m.clean = true ∧ m.type.kind = a.kind ∧
      (m.type.equal a = true ↔ (a.kind.isOpaque = true → a.token = none ∧ a.fields = [])) ∧
      (a.kind.isOpaque = true → m.type.token = none ∧ m.type.fields = []) := by
  obtain ⟨m, hm, hclean, hequal, hbare⟩ := exists_merges_self (c := c) ha.inOrder
  refine ⟨m, union_of_merges hm, hclean, ?_⟩
  cases ho : a.kind.isOpaque with
  | false => exact ⟨Ty.kind_eq_of_equal (hequal ho), iff_of_true (hequal ho) (by simp), by simp⟩
  | true =>
    obtain ⟨hkind, htoken, hfields⟩ := hbare ho
    refine ⟨hkind, ?_, fun _ => ⟨htoken, hfields⟩⟩
    have hnone : Token.same none a.token = true ↔ a.token = none := by cases a.token <;> simp [Token.same]
    rw [Ty.equal_iff_of_isOpaque ho hkind, htoken, hfields, hnone, FieldsAlike, List.forall₂_nil_left_iff]
    simp

/-- An entity with a token. -/
def namedEntity : Ty := .node (Ty.bareForm .dataEntity) (some ⟨Bytes.ofString "A", none⟩) ∅

/-- A record of an entity and a record on demand. -/
def recordOfEntity : Ty :=
  .ofForm (.aggregate .record true
    [(Bytes.ofString "A", namedEntity), (Bytes.ofString "B", .ofForm (.lazy false false (some oneField)))])

theorem exists_union_self_recordOfEntity :
    recordOfEntity.Sound ∧
      ∃ m, (Checker.union ⟨Rules.standard, none, false⟩ recordOfEntity recordOfEntity).outcome = .ok m ∧
        m.clean = true ∧ m.type.equal recordOfEntity = true := by
  have ha : recordOfEntity.Sound := by decide +kernel
  obtain ⟨m, hm, hclean, -, hequal, -⟩ := exists_union_self (c := ⟨Rules.standard, none, false⟩) ha
  exact ⟨ha, m, hm, hclean, hequal.2 fun ho => by cases ho⟩

/-- An entity is lost from its union with itself. -/
theorem union_namedEntity_unequal :
    namedEntity.Sound ∧
      ∃ m, (Checker.union ⟨Rules.standard, none, false⟩ namedEntity namedEntity).outcome = .ok m ∧
        m.type.equal namedEntity = false := by
  have ha : namedEntity.Sound := by decide +kernel
  obtain ⟨m, hm, -, -, hbare⟩ := exists_merges_self (c := ⟨Rules.standard, none, false⟩) ha.inOrder
  obtain ⟨-, htoken, -⟩ := hbare rfl
  refine ⟨ha, m, union_of_merges hm, Bool.eq_false_iff.2 fun h => ?_⟩
  have hsame := (Ty.alike_of_equal h).2
  rw [htoken] at hsame
  cases hsame

/-! ## The other order -/

/-- On the way to the union of `a` and `b` two types that accept each other are compared, `x` with `y`. -/
inductive MutualMerge (c : Checker) : Ty → Ty → Ty → Ty → Prop
  | here {a b : Ty} (h : Unmerged a b) (hab : c.exactly.Fits a b) (hba : c.exactly.Fits b a) : MutualMerge c a b a b
  | nested {a b x y fa fb : Ty} {name : Bytes} (ha : a.isEager = true) (hb : b.isEager = true) (hk : a.kind = b.kind)
      (hfa : NameMap.find? a.fields name = some fa) (hfb : NameMap.find? b.fields name = some fb)
      (he : (fa.isEager && fb.isEager) = true) (hxy : MutualMerge c fa fb x y) : MutualMerge c a b x y
  | leaf {a b x y fa fb : Ty} {name : Bytes} (ha : a.isEager = true) (hb : b.isEager = true) (hk : a.kind = b.kind)
      (hfa : NameMap.find? a.fields name = some fa) (hfb : NameMap.find? b.fields name = some fb)
      (he : (fa.isEager && fb.isEager) = false) (hab : fa.isExpansionOf fb = false) (hba : fb.isExpansionOf fa = false)
      (hxy : c.Mutual fa fb x y) : MutualMerge c a b x y
  | expansion {a b ea eb x y : Ty} (h : Unmerged a b) (hab : c.exactly.Refuses a b) (hba : c.exactly.Refuses b a)
      (hl : (a.isLazy || b.isLazy) = true) (ha : a.expansion? = some ea) (hb : b.expansion? = some eb)
      (hxy : MutualMerge c ea eb x y) : MutualMerge c a b x y

/-- Lazy types of one kind that are compared on the way to a union, and are not equal, have different digests. -/
def ApartMerging (c : Checker) (a b : Ty) : Prop :=
  ∀ x y, c.MutualMerge a b x y → x.equal y = false → x.isLazy = true → y.isLazy = true → x.kind = y.kind →
    x.digest ≠ y.digest

theorem Mutual.unequal {x y : Ty} (h : c.Mutual a b x y) : x.equal y = false := by
  induction h with
  | here h => simpa using h.unequal
  | field _ _ _ _ _ _ _ ih | expansion _ _ _ _ _ _ _ ih => exact ih

theorem Unmerged.symm (h : Unmerged a b) : Unmerged b a :=
  ⟨h.right, h.left, by rw [Bool.and_comm]; exact h.uneager⟩

/-- The same types are compared on the way to a union in the other order. -/
theorem MutualMerge.symm {x y : Ty} (ha : a.Sound) (hb : b.Sound) (h : c.MutualMerge a b x y) :
    c.MutualMerge b a y x := by
  induction h with
  | here h hab hba => exact .here h.symm hba hab
  | nested hea heb hk hfa hfb he _ ih =>
    have hxy := ih (ha.part (Ty.mem_parts_of_mem_fields (NameMap.mem_of_find? hfa)))
      (hb.part (Ty.mem_parts_of_mem_fields (NameMap.mem_of_find? hfb)))
    exact .nested heb hea hk.symm hfb hfa (by rw [Bool.and_comm]; exact he) hxy
  | leaf hea heb hk hfa hfb he hab hba hxy =>
    have hyx := hxy.symm (ha.part (Ty.mem_parts_of_mem_fields (NameMap.mem_of_find? hfa)))
      (hb.part (Ty.mem_parts_of_mem_fields (NameMap.mem_of_find? hfb)))
    exact .leaf heb hea hk.symm hfb hfa (by rw [Bool.and_comm]; exact he) hba hab hyx
  | expansion h hab hba hl hea heb _ ih =>
    exact .expansion h.symm hba hab (by rw [Bool.or_comm]; exact hl) heb hea
      (ih (sound_expansion ha hea) (sound_expansion hb heb))

theorem ApartMerging.symm (ha : a.Sound) (hb : b.Sound) (h : c.ApartMerging a b) : c.ApartMerging b a := by
  intro x y hxy hequal hx hy hk
  rw [Ty.equal_comm] at hequal
  exact (h y x (hxy.symm hb ha) hequal hy hx hk.symm).symm

theorem equal_of_objNull (ha : a.Sound) (hb : b.Sound) (hka : a.kind = .objNull) (hkb : b.kind = .objNull) :
    a.Equal b := by
  refine Ty.equal_of_kind_eq ha hb (hka.trans hkb.symm) ?_ ?_ ?_ <;> rw [hka] <;> decide

/-- Fields are merged in the other order as well. -/
theorem exists_mergesLeaves_swap (ha : a.Sound) (hb : b.Sound)
    (hd : a.isExpansionOf b = false → b.isExpansionOf a = false → c.Apart a b) (h : c.MergesLeaves a b m) :
    ∃ m', c.MergesLeaves b a m' ∧ MergesAlike m m' := by
  cases h with
  | nullLeft hna =>
    by_cases hnb : b.kind = .objNull
    · exact ⟨_, .nullLeft hnb, equal_of_objNull hb ha hnb hna, rfl⟩
    · exact ⟨_, .nullRight hnb hna, Ty.equal_self b, rfl⟩
  | nullRight hna hnb => exact ⟨_, .nullLeft hnb, Ty.equal_self a, rfl⟩
  | entityRight hna hnb h => exact ⟨_, .entityLeft hnb hna h, Ty.equal_self b, rfl⟩
  | entityLeft hna hnb h => exact ⟨_, .entityRight hnb hna h, Ty.equal_self a, rfl⟩
  | joined hna hnb hab hba hs =>
    obtain ⟨r, hr, hequal⟩ := exists_joins_swap ha hb (hd hab hba) hs
    refine ⟨_, .joined hnb hna hba hab hr, hequal, ?_⟩
    rw [Ty.kind_eq_of_equal hequal, Bool.or_right_comm]

/-- Merges of the fields of two aggregates in both orders. -/
structure MergesBothWays (a b : Ty) (merge merge' : Bytes × Ty → Merge) : Prop where
  newRight : ∀ e ∈ b.fields, NameMap.find? a.fields e.1 = none → merge e = ⟨e.2, true⟩
  newLeft : ∀ e ∈ a.fields, NameMap.find? b.fields e.1 = none → merge' e = ⟨e.2, true⟩
  shared : ∀ name fa fb, NameMap.find? a.fields name = some fa → NameMap.find? b.fields name = some fb →
    MergesAlike (merge (name, fb)) (merge' (name, fa))

section BothWays

variable {merge merge' : Bytes × Ty → Merge}

theorem MergesBothWays.fieldsAlike (h : MergesBothWays a b merge merge') (ha : NameMap.Ordered a.fields)
    (hb : NameMap.Ordered b.fields) : FieldsAlike (a.mergedFields b merge) (b.mergedFields a merge') := by
  refine NameMap.paired_of_find? (R := Equal) (Ty.ordered_mergedFields ha b merge)
    (Ty.ordered_mergedFields hb a merge') fun name => ?_
  rw [Ty.find?_mergedFields hb, Ty.find?_mergedFields ha]
  cases hfa : NameMap.find? a.fields name with
  | none =>
    cases hfb : NameMap.find? b.fields name with
    | none => exact .none
    | some fb =>
      rw [Option.map_some, h.newRight (name, fb) (NameMap.mem_of_find? hfb) hfa]
      exact .some (Ty.equal_self fb)
  | some fa =>
    cases hfb : NameMap.find? b.fields name with
    | none =>
      rw [Option.map_some, h.newLeft (name, fa) (NameMap.mem_of_find? hfa) hfb]
      exact .some (Ty.equal_self fa)
    | some fb => exact .some (h.shared name fa fb hfa hfb).type

theorem MergesBothWays.symm (h : MergesBothWays a b merge merge') : MergesBothWays b a merge' merge := by
  refine ⟨h.newLeft, h.newRight, fun name fb fa hfb hfa => ?_⟩
  have halike := h.shared name fa fb hfa hfb
  exact ⟨Ty.equal_symm halike.type, halike.clean.symm⟩

/-- If the first order goes without conflict, so does the second. -/
theorem MergesBothWays.clean_of_clean (h : MergesBothWays a b merge merge') (ha : NameMap.Ordered a.fields)
    (hclean : (b.fields.all fun e => (merge e).clean) = true) : (a.fields.all fun e => (merge' e).clean) = true := by
  rw [List.all_eq_true] at hclean ⊢
  intro e he
  cases hfb : NameMap.find? b.fields e.1 with
  | none => rw [h.newLeft e he hfb]
  | some fb =>
    rw [← (h.shared e.1 e.2 fb (NameMap.find?_of_mem ha he) hfb).clean]
    exact hclean _ (NameMap.mem_of_find? hfb)

/-- Aggregates of fields merged in both orders are alike. -/
theorem MergesBothWays.alike (h : MergesBothWays a b merge merge') (ha : NameMap.Ordered a.fields)
    (hb : NameMap.Ordered b.fields) (shape : Shape) :
    MergesAlike
      ⟨.ofForm₂ (.aggregate shape (a.optional || b.optional) (a.mergedFields b merge))
          (Token.common a.token b.token) a b,
        b.fields.all fun e => (merge e).clean⟩
      ⟨.ofForm₂ (.aggregate shape (b.optional || a.optional) (b.mergedFields a merge'))
        (Token.common b.token a.token) b a, a.fields.all fun e => (merge' e).clean⟩ := by
  refine ⟨Ty.equal_iff.2 ⟨?_, Token.same_common _ _⟩, ?_⟩
  · rw [Bool.or_comm]
    exact .aggregate (h.fieldsAlike ha hb)
  · exact Bool.eq_iff_iff.2 ⟨h.clean_of_clean ha, h.symm.clean_of_clean hb⟩

end BothWays

/-- What stands for two types that accept each other does not depend on their order, whether they are equal or not. -/
theorem exists_mutualBound_comm (ha : a.Sound) (hb : b.Sound) (hu : Unmerged a b) (hab : c.exactly.Fits a b)
    (hba : c.exactly.Fits b a) (hs : (mutualBound a b).outcome = .ok s)
    (hd : a.equal b = false → a.isLazy = true → b.isLazy = true → a.kind = b.kind → a.digest ≠ b.digest) :
    ∃ r, (mutualBound b a).outcome = .ok r ∧ s.equal r = true := by
  cases hequal : a.equal b with
  | false => exact exists_mutualBound_swap ha hb ⟨by simp [hequal], hu.uneager⟩ hab hba hs (hd hequal)
  | true =>
    cases agree_mutualBound hequal (Ty.equal_symm hequal) with
    | ok hx hy hr =>
      rw [hx] at hs
      cases hs
      exact ⟨_, hy, hr⟩
    | fault hx =>
      rw [hx] at hs
      cases hs

/-- Types that refuse each other are not compared on the way to their supertype. -/
theorem apart_of_refuses (hu : Unmerged a b) (hab : c.exactly.Refuses a b) (hl : (a.isLazy || b.isLazy) = false) :
    c.Apart a b := by
  intro x y hxy
  cases hxy with
  | here _ h => exact absurd h hab.not_fits
  | field _ hea heb => exact absurd (by rw [hea, heb]; rfl) hu.uneager
  | expansion _ _ _ hl' =>
    rw [hl] at hl'
    cases hl'

/-- A shared field is merged in the other order as well, alike. -/
theorem exists_mergesAt_swap {g : Bytes × Ty} {f : Ty} (hg : g.2.Sound) (hf : f.Sound)
    (hfound : NameMap.find? b.fields g.1 = some f)
    (hapart : (g.2.isEager && f.isEager) = false → g.2.isExpansionOf f = false → f.isExpansionOf g.2 = false →
      c.Apart g.2 f)
    (hleaves : (g.2.isEager && f.isEager) = false → c.MergesLeaves g.2 f m)
    (hnested : (g.2.isEager && f.isEager) = true → ∃ m', c.Merges f g.2 m' ∧ MergesAlike m m') :
    ∃ m', c.MergesAt b g m' ∧ MergesAlike m m' := by
  cases hboth : g.2.isEager && f.isEager with
  | false =>
    obtain ⟨m', hm', halike⟩ := exists_mergesLeaves_swap hg hf (hapart hboth) (hleaves hboth)
    rw [Bool.and_comm] at hboth
    exact ⟨m', mergesAt_shared hfound (fun _ => hm') (by simp [hboth]), halike⟩
  | true =>
    obtain ⟨m', hm', halike⟩ := hnested hboth
    rw [Bool.and_comm] at hboth
    exact ⟨m', mergesAt_shared hfound (by simp [hboth]) fun _ => hm', halike⟩

/-- Eager aggregates of one kind are merged in the other order as well, if their shared fields are. -/
theorem exists_merges_fields_swap (ha : NameMap.Ordered a.fields) (hb : NameMap.Ordered b.fields)
    (heb : b.isEager = true) {shape : Shape} {optional : Bool} {old : List (Bytes × Ty)}
    (hform : a.form = .aggregate shape optional old) (hk : a.kind = b.kind) {merge : Bytes × Ty → Merge}
    (hnew : ∀ e ∈ b.fields, NameMap.find? a.fields e.1 = none → merge e = ⟨e.2, true⟩)
    (hshared : ∀ g ∈ a.fields, ∀ f, NameMap.find? b.fields g.1 = some f →
      ∃ m', c.MergesAt b g m' ∧ MergesAlike (merge (g.1, f)) m') :
    ∃ m', c.Merges b a m' ∧ MergesAlike
      ⟨.ofForm₂ (.aggregate shape (a.optional || b.optional) (a.mergedFields b merge))
        (Token.common a.token b.token) a b, b.fields.all fun e => (merge e).clean⟩ m' := by
  obtain ⟨shape', optional', old', hform'⟩ := Ty.isEager_iff.1 heb
  obtain rfl := Ty.shape_eq_of_kind_eq hform hform' hk
  have hswap : ∀ g ∈ a.fields, ∃ m', c.MergesAt b g m' ∧
      ∀ f, NameMap.find? b.fields g.1 = some f → MergesAlike (merge (g.1, f)) m' := by
    intro g hg
    cases hf : NameMap.find? b.fields g.1 with
    | none => exact ⟨_, mergesAt_new hf, fun f hf' => by cases hf'⟩
    | some f =>
      obtain ⟨m', hm', halike⟩ := hshared g hg f hf
      refine ⟨m', hm', fun f' hf' => ?_⟩
      cases hf'
      exact halike
  obtain ⟨merge', hmerge', hmerges⟩ := exists_merges_fields (Ty.isEager_iff.2 ⟨_, _, _, hform⟩) hform' hk.symm hswap
  have hboth : MergesBothWays a b merge merge' :=
    ⟨hnew, fun e he => (hmerge' e he).1.new, fun name fa fb hfa hfb =>
      (hmerge' (name, fa) (NameMap.mem_of_find? hfa)).2 fb hfb⟩
  exact ⟨_, hmerges, hboth.alike ha hb shape⟩

/-- Two types that are merged are merged in the other order as well, alike. -/
theorem exists_merges_swap (ha : a.Sound) (hb : b.Sound) (hd : c.ApartMerging a b) (h : c.Merges a b m) :
    ∃ m', c.Merges b a m' ∧ MergesAlike m m' := by
  induction h with
  | @nullLeft a b hna hvb =>
    have hva : a.kind ≠ .void := by
      rw [hna]
      decide
    by_cases hnb : b.kind = .objNull
    · have hequal := equal_of_objNull hb ha hnb hna
      exact ⟨_, .nullLeft hnb hva, Ty.withSourcesOf_congr hequal a b, rfl⟩
    · exact ⟨_, .nullRight hnb hvb hna, Ty.equal_self _, rfl⟩
  | nullRight _ hva hnb => exact ⟨_, .nullLeft hnb hva, Ty.equal_self _, rfl⟩
  | apart hea heb hk => exact ⟨_, .apart heb hea hk.symm, Ty.equal_self _, rfl⟩
  | @fields a b heb shape optional old hform hk merge hnew hleaves hnested ih =>
    have hea : a.isEager = true := Ty.isEager_iff.2 ⟨_, _, _, hform⟩
    refine exists_merges_fields_swap ha.ordered_fields hb.ordered_fields heb hform hk hnew fun g hg f hf => ?_
    have hfound := NameMap.find?_of_mem ha.ordered_fields hg
    have he := NameMap.mem_of_find? hf
    have hsg := ha.part (Ty.mem_parts_of_mem_fields hg)
    have hsf := hb.part (Ty.mem_parts_of_mem_fields he)
    refine exists_mergesAt_swap hsg hsf hf (fun hboth hgf hfg x y hxy => ?_) (hleaves _ he _ hfound) fun hboth => ?_
    · exact hd x y (.leaf hea heb hk hfound hf hboth hgf hfg hxy) hxy.unequal
    · exact ih _ he _ hfound hboth hsg hsf fun x y hxy => hd x y (.nested hea heb hk hfound hf hboth hxy)
  | either hu hab hba hs =>
    obtain ⟨r, hr, hequal⟩ := exists_mutualBound_comm ha hb hu hab hba hs (hd _ _ (.here hu hab hba))
    exact ⟨_, .either hu.symm hba hab hr, hequal, rfl⟩
  | left hu hab hba => exact ⟨_, .right hu.symm hba hab, Ty.equal_self _, rfl⟩
  | right hu hab hba => exact ⟨_, .left hu.symm hba hab, Ty.equal_self _, rfl⟩
  | expanded hu hab hba hl hx hea heb hp _ ih =>
    obtain ⟨m', hm', halike⟩ := ih (sound_expansion ha hea) (sound_expansion hb heb)
      fun x y hxy => hd x y (.expansion hu hab hba hl hea heb hxy)
    exact ⟨m', .expanded hu.symm hba hab (by rw [Bool.or_comm]; exact hl) (by rw [bothExpand_comm]; exact hx) heb hea
      hp.symm hm', halike⟩
  | closed hu hab hba hl hx =>
    exact ⟨_, .closed hu.symm hba hab (by rw [Bool.or_comm]; exact hl) (by rw [bothExpand_comm]; exact hx),
      Ty.equal_self _, rfl⟩
  | joined hu hab hba hl hs =>
    obtain ⟨r, hr, hequal⟩ := exists_joins_swap ha hb (apart_of_refuses hu hab hl) hs
    refine ⟨_, .joined hu.symm hba hab (by rw [Bool.or_comm]; exact hl) hr, hequal, ?_⟩
    rw [Ty.kind_eq_of_equal hequal]

/-- If a union comes out, so does that in the other order. -/
theorem ends_union_swap (ha : a.Sound) (hb : b.Sound) (hd : c.ApartMerging a b) (h : (c.union a b).Ends) :
    (c.union b a).Ends := by
  obtain ⟨m, hm⟩ := h
  obtain ⟨m', hm', -⟩ := exists_merges_swap ha hb hd (merges_of_union ha hb hm)
  exact ⟨m', union_of_merges hm'⟩

/-- **Unions are commutative**: of two types the union comes out in both orders or in none, it does if look-ups end,
and what comes out is equal, and both with or both without conflict. -/
theorem union_comm (ha : a.Sound) (hb : b.Sound) (hd : c.ApartMerging a b) :
    ((c.union a b).Ends ↔ (c.union b a).Ends) ∧ (c.Answers → (c.union a b).Ends) ∧
      ∀ m m', (c.union a b).outcome = .ok m → (c.union b a).outcome = .ok m' →
        m.clean = m'.clean ∧ m.type.equal m'.type = true := by
  refine ⟨⟨ends_union_swap ha hb hd, ends_union_swap hb ha (hd.symm ha hb)⟩, fun hc => ?_, fun m m' hm hm' => ?_⟩
  · obtain ⟨m, hm⟩ := hc.covers.exists_merges ha hb
    exact ⟨m, union_of_merges hm⟩
  · obtain ⟨r, hr, halike⟩ := exists_merges_swap ha hb hd (merges_of_union ha hb hm)
    have hsame := union_of_merges hr
    rw [hm'] at hsame
    cases hsame
    exact ⟨halike.clean, halike.type⟩

theorem apartMerging_optionalRecord (c : Checker) : c.ApartMerging requiredRecord optionalRecord := by
  intro x y hxy _
  cases hxy with
  | here h => exact absurd rfl h.uneager
  | nested _ _ _ hfa _ he =>
    have hmem := NameMap.mem_of_find? hfa
    simp only [requiredRecord, Ty.fields, Ty.form, Ty.ofForm, List.mem_cons, List.not_mem_nil, or_false] at hmem
    rcases hmem with hmem | hmem | hmem <;> cases hmem <;> cases he
  | leaf ha hb hk hfa hfb _ _ _ hxy =>
    exact apart_optionalRecord c x y (.field (by decide +kernel) ha hb hk (NameMap.mem_of_find? hfa) hfb hxy)
  | expansion _ _ _ hl => cases hl

theorem union_comm_records :
    requiredRecord.Sound ∧ optionalRecord.Sound ∧
      singleEntity.ApartMerging requiredRecord optionalRecord ∧
      ∃ m m', (singleEntity.union requiredRecord optionalRecord).outcome = .ok m ∧
        (singleEntity.union optionalRecord requiredRecord).outcome = .ok m' ∧
        m.clean = m'.clean ∧ m.type.equal m'.type = true := by
  have ha : requiredRecord.Sound := by decide +kernel
  have hb : optionalRecord.Sound := by decide +kernel
  have hd := apartMerging_optionalRecord singleEntity
  obtain ⟨hends, hanswers, hequal⟩ := union_comm ha hb hd
  obtain ⟨m, hm⟩ := hanswers answers_singleEntity
  obtain ⟨m', hm'⟩ := hends.1 ⟨m, hm⟩
  exact ⟨ha, hb, hd, m, m', hm, hm', hequal m m' hm hm'⟩

end Checker

end FormulaTypes
