import FormulaTypes.Proofs.Checker.Ends
import FormulaTypes.Proofs.Ty.Edits
import FormulaTypes.Proofs.Ty.Structural

/-!
# Checks cannot tell equal types apart

Types are twins if they are equal, without lazy types in them, and tokens of one key in them have the same kind behind
them (`Ty.Twin`). Whatever a check reads off a type it reads off its twin as well, so that checks of twins agree
(`agree_check`), as long as the directory knows entities by their keys (`Checker.Keyed`). The destination may also hold
lazy types, as what the directory knows may, if they are the very same (`Ty.Akin`).
-/

namespace FormulaTypes

/-! ## What equal types have in common -/

section Tests

/-- Equivalence relates what is equivalent alike. -/
theorem iff_of_equivalence {α : Type} {R : α → α → Prop} (hr : Equivalence R) {a a' b b' : α} (ha : R a a')
    (hb : R b b') : R a b ↔ R a' b' := by
  constructor
  · intro h
    exact hr.trans (hr.symm ha) (hr.trans h hb)
  · intro h
    exact hr.trans ha (hr.trans h (hr.symm hb))

/-- A test that decides an equivalence answers alike for what it finds equal. -/
theorem test_congr {α : Type} {test : α → α → Bool} {R : α → α → Prop} (htest : ∀ {a b}, test a b = true ↔ R a b)
    (hr : Equivalence R) {a a' b b' : α} (ha : test a a' = true) (hb : test b b' = true) :
    test a b = test a' b' := by
  rw [Bool.eq_iff_iff, htest, htest]
  exact iff_of_equivalence hr (htest.1 ha) (htest.1 hb)

variable {s s' t t' : Option Token}

theorem Token.same_congr (hs : Token.same s s' = true) (ht : Token.same t t' = true) :
    Token.same s t = Token.same s' t' := by
  rw [Bool.eq_iff_iff, Token.same_iff, Token.same_iff, Token.same_iff.1 hs, Token.same_iff.1 ht]

theorem Token.compatible_congr (hs : Token.same s s' = true) (ht : Token.same t t' = true) :
    Token.compatible s t = Token.compatible s' t' := by
  cases s <;> cases s' <;> cases t <;> cases t' <;> simp_all [Token.same, Token.compatible]

theorem Literal.same_congr {x x' y y' : Literal} (hx : x.same x' = true) (hy : y.same y' = true) :
    x.same y = x'.same y' :=
  test_congr Literal.same_iff Literal.same_equivalence hx hy

theorem Values.agree_congr {vs vs' ws ws' : Values} (hv : vs.agree vs' = true) (hw : ws.agree ws' = true) :
    vs.agree ws = vs'.agree ws' :=
  test_congr Values.agree_iff_same Values.same_equivalence hv hw

/-- Literals that agree are accepted alike. -/
theorem Rules.valuesAccept_congr (r : Rules) {vs vs' ws ws' : Values} (hv : vs.agree vs' = true)
    (hw : ws.agree ws' = true) : r.valuesAccept vs ws = r.valuesAccept vs' ws' := by
  rw [valuesAccept_eq, valuesAccept_eq, Values.equal_eq_agree, Values.equal_eq_agree, Values.agree_congr hv hw,
    eachValueAccepted, eachValueAccepted]
  congr 1
  rw [Values.agree_iff] at hw
  generalize ws.entries = es at hw
  generalize ws'.entries = es' at hw
  induction hw with
  | nil => rfl
  | @cons e f es es' he _ ih =>
    have hfind := NameMap.Paired.find? (R := fun x y => Literal.same x y = true) (Values.agree_iff.1 hv) f.1
    rw [List.all_cons, List.all_cons, ih, he.1]
    congr 1
    rw [OrderedMap.find?, OrderedMap.find?]
    generalize vs.entries.find? f.1 = found at hfind
    generalize vs'.entries.find? f.1 = found' at hfind
    cases hfind with
    | some hsame => exact Literal.same_congr hsame he.2
    | none => rfl

theorem fieldsAlike_congr {fs fs' gs gs' : NameMap Ty} (hf : FieldsAlike fs fs') (hg : FieldsAlike gs gs') :
    FieldsAlike fs gs ↔ FieldsAlike fs' gs' := by
  rw [fieldsAlike_iff, fieldsAlike_iff]
  exact iff_of_equivalence (NameMap.entrywise_equivalence Ty.same_equivalence) (fieldsAlike_iff.1 hf)
    (fieldsAlike_iff.1 hg)

end Tests

namespace Ty

variable {t u : Ty}

theorem superkind_eq_of_equal (h : t.equal u = true) : t.superkind = u.superkind :=
  (alike_iff.1 (alike_of_equal h).1).2.1

theorem optional_eq_of_equal (h : t.equal u = true) : t.optional = u.optional :=
  (alike_iff.1 (alike_of_equal h).1).2.2.1

theorem fieldsAlike_of_equal (h : t.equal u = true) : FieldsAlike t.fields u.fields :=
  (alike_iff.1 (alike_of_equal h).1).2.2.2.2.1

theorem values_agree_of_equal (h : t.equal u = true) : t.values.agree u.values = true :=
  (alike_iff.1 (alike_of_equal h).1).2.2.2.2.2

theorem equal_congr {t' u' : Ty} (ht : t.equal t' = true) (hu : u.equal u' = true) : t.equal u = t'.equal u' :=
  test_congr equal_iff_same same_equivalence ht hu

/-! ## Twins -/

/-- The type is sound, no type in it is lazy, and behind each of its tokens is the kind of its key. -/
structure Settled (backing : Bytes → Kind) (t : Ty) : Prop where
  sound : t.Sound
  eager : t.Everywhere fun u => u.isLazy = false
  backed : t.Everywhere fun u => ∀ token ∈ u.token, Token.backingKind u.token = backing token.key

variable {backing : Bytes → Kind}

theorem Settled.part (h : t.Settled backing) {part : Ty} (hpart : part ∈ t.parts) : part.Settled backing :=
  ⟨h.sound.part hpart, h.eager.part hpart, h.backed.part hpart⟩

theorem Settled.isLazy_eq_false (h : t.Settled backing) : t.isLazy = false := h.eager.here

/-- Types of a kind without further parts are settled. -/
theorem settled_ofKind {k : Kind} (h : ofKind k = .ok t) : t.Settled backing := by
  have hsound := sound_ofKind h
  have hnone : ∀ token ∈ (none : Option Token), Token.backingKind none = backing token.key := by
    rintro token ⟨⟩
  cases k <;> simp [ofKind, plainForm?, Kind.isLeaf, Kind.isValid] at h <;> subst h <;>
    exact ⟨hsound, .intro rfl (List.forall_mem_nil _), .intro hnone (List.forall_mem_nil _)⟩

/-- Types that are equal and settled. -/
structure Twin (backing : Bytes → Kind) (t u : Ty) : Prop where
  equal : t.equal u = true
  left : t.Settled backing
  right : u.Settled backing

/-- Types of a kind without further parts are their own twins. -/
theorem twin_ofKind {k : Kind} (h : ofKind k = .ok t) : Twin backing t t :=
  ⟨equal_self t, settled_ofKind h, settled_ofKind h⟩

/-- Types that a check cannot tell apart as destinations: equal, and without lazy types in them or of the very same
form. -/
structure Akin (t u : Ty) : Prop where
  equal : t.equal u = true
  eager : t.form = u.form ∨ (t.Everywhere fun v => v.isLazy = false) ∧ u.Everywhere fun v => v.isLazy = false

theorem Twin.akin (h : Twin backing t u) : Akin t u := ⟨h.equal, .inr ⟨h.left.eager, h.right.eager⟩⟩

theorem akin_self (t : Ty) : Akin t t := ⟨equal_self t, .inl rfl⟩

theorem akin_fields_of_form_eq (h : t.form = u.form) : NameMap.Paired Akin t.fields u.fields := by
  rw [fields_eq_of_form_eq h]
  exact List.forall₂_same.2 fun e _ => ⟨rfl, akin_self e.2⟩

theorem Akin.fields (h : Akin t u) : NameMap.Paired Akin t.fields u.fields := by
  rcases h.eager with hform | ⟨ht, hu⟩
  · exact akin_fields_of_form_eq hform
  · have halike : NameMap.Paired (fun x y => Ty.equal x y = true) t.fields u.fields := fieldsAlike_of_equal h.equal
    refine halike.imp_of_mem fun e he f hf hequal => ?_
    exact ⟨hequal, .inr ⟨ht.part (mem_parts_of_mem_fields he), hu.part (mem_parts_of_mem_fields hf)⟩⟩

theorem Twin.fields (h : Twin backing t u) : NameMap.Paired (Twin backing) t.fields u.fields := by
  have halike : NameMap.Paired (fun x y => Ty.equal x y = true) t.fields u.fields := fieldsAlike_of_equal h.equal
  refine halike.imp_of_mem fun e he f hf hequal => ?_
  exact ⟨hequal, h.left.part (mem_parts_of_mem_fields he), h.right.part (mem_parts_of_mem_fields hf)⟩

theorem Twin.field? (h : Twin backing t u) (name : Bytes) :
    Option.Rel (Twin backing) (t.field? name) (u.field? name) := by
  rw [field?_of_not_lazy h.left.isLazy_eq_false, field?_of_not_lazy h.right.isLazy_eq_false]
  exact h.fields.find? name

theorem Twin.isLazy_eq (h : Twin backing t u) : t.isLazy = u.isLazy :=
  h.left.isLazy_eq_false.trans h.right.isLazy_eq_false.symm

/-- The kind behind a token is the same in twins. -/
theorem Twin.backingKind_eq (h : Twin backing t u) : Token.backingKind t.token = Token.backingKind u.token := by
  have htoken := (alike_of_equal h.equal).2
  have hleft := h.left.backed.here
  have hright := h.right.backed.here
  cases ht : t.token with
  | none =>
    cases hu : u.token with
    | none => rfl
    | some y => rw [ht, hu] at htoken; cases htoken
  | some x =>
    cases hu : u.token with
    | none => rw [ht, hu] at htoken; cases htoken
    | some y =>
      rw [ht, hu] at htoken
      have hkey : x.key = y.key := of_decide_eq_true htoken
      rw [← ht, ← hu, hleft x ht, hright y hu, hkey]

/-- The column of a selection takes the values of one option set. -/
theorem selection?_congr {dst dst' src src' : Ty} (hd : dst.equal dst' = true) (hs : src.equal src' = true) :
    (dst.selection?.any fun column => Token.compatible column.token src.token) =
      dst'.selection?.any fun column => Token.compatible column.token src'.token := by
  obtain ⟨halike, -⟩ := alike_of_equal hd
  have htoken := (alike_of_equal hs).2
  rw [selection?, selection?]
  generalize dst.form = f at halike
  generalize dst'.form = g at halike
  cases halike with
  | leaf | enum | choices | lazy => rfl
  | @aggregate shape optional fs gs hfs =>
    cases hfs with
    | nil => cases shape <;> rfl
    | cons he hrest =>
      cases hrest with
      | cons => cases shape <;> rfl
      | nil =>
        obtain ⟨hname, hequal⟩ := he
        cases shape with
        | record | file | largeImage => rfl
        | table =>
          dsimp only
          rw [hname, kind_eq_of_equal hequal]
          split
          · exact Token.compatible_congr (alike_of_equal hequal).2 htoken
          · rfl

end Ty

namespace Checker

variable {c : Checker} {dst dst' src src' : Ty} {backing : Bytes → Kind}

open Ty (Twin Akin)

/-- The directory knows an entity by the key of its token alone. -/
def Keyed (c : Checker) : Prop :=
  ∀ look s t, c.entities = some look → s.key = t.key → look s = look t

/-! ## Checks -/

/-- Both find something, or both find nothing. -/
abbrev BothNone {α β : Type} (x : Option α) (y : Option β) : Prop := x.isNone = y.isNone

theorem agree_acceptIf {test test' : Bool} (h : test = test') :
    Run.Agree BothNone (acceptIf test dst src) (acceptIf test' dst' src') := by
  subst h
  cases test with
  | true => exact Run.agree_pure rfl
  | false => exact Run.agree_pure rfl

theorem agree_accept : Run.Agree BothNone accept accept := Run.agree_pure rfl

theorem agree_reject : Run.Agree BothNone (reject dst src) (reject dst' src') := Run.agree_pure rfl

theorem leafAccepts_congr (hd : dst.equal dst' = true) (hs : src.equal src' = true) :
    c.leafAccepts dst src = c.leafAccepts dst' src' := by
  rw [leafAccepts, leafAccepts, Ty.kind_eq_of_equal hd, Ty.kind_eq_of_equal hs,
    Token.compatible_congr (Ty.alike_of_equal hd).2 (Ty.alike_of_equal hs).2]

section Aggregates

/-- Checks of the fields of a source agree with those of its twin. -/
def AgreeInside (c : Checker) (backing : Bytes → Kind) (src src' : Ty) : Prop :=
  ∀ name actual actual', src.field? name = some actual → src'.field? name = some actual' →
    Twin backing actual actual' → ∀ {expected expected'}, Akin expected expected' →
    Run.Agree BothNone (c.check expected actual) (c.check expected' actual')

theorem agree_checkField (ho : dst.optional = dst'.optional) (hs : Twin backing src src')
    (ih : c.AgreeInside backing src src') (name : Bytes) {expected expected' : Ty} (he : Akin expected expected') :
    Run.Agree BothNone (c.checkField dst src name expected) (c.checkField dst' src' name expected') := by
  rw [checkField_eq, checkField_eq]
  refine Run.agree_ite (by rw [Ty.kind_eq_of_equal he.equal]) (fun _ => agree_accept) fun _ => ?_
  refine Run.agree_bind (.ok rfl rfl rfl) fun _ _ _ => ?_
  have hfield := hs.field? name
  cases hactual : src.field? name with
  | none =>
    rw [hactual] at hfield
    cases hactual' : src'.field? name with
    | some actual' =>
      rw [hactual'] at hfield
      cases hfield
    | none => exact Run.agree_ite (by rw [ho]) (fun _ => Run.agree_pure rfl) fun _ => agree_accept
  | some actual =>
    rw [hactual] at hfield
    cases hactual' : src'.field? name with
    | none =>
      rw [hactual'] at hfield
      cases hfield
    | some actual' =>
      rw [hactual'] at hfield
      cases hfield with
      | some htwin =>
        refine Run.agree_bind (ih name actual actual' hactual hactual' htwin he) fun m m' hm => Run.agree_pure ?_
        rw [BothNone, Option.isNone_map, Option.isNone_map]
        exact hm

theorem agree_checkFields (hf : NameMap.Paired Akin dst.fields dst'.fields) (ho : dst.optional = dst'.optional)
    (hs : Twin backing src src') (ih : c.AgreeInside backing src src') :
    Run.Agree BothNone (c.checkFields dst src) (c.checkFields dst' src') := by
  have hfields : FieldsAlike dst.fields dst'.fields := hf.imp fun e f h => ⟨h.1, h.2.equal⟩
  have hequal : fieldsEqual dst.fields src.fields = fieldsEqual dst'.fields src'.fields := by
    rw [Bool.eq_iff_iff, fieldsEqual_iff, fieldsEqual_iff]
    exact fieldsAlike_congr hfields (Ty.fieldsAlike_of_equal hs.equal)
  rw [checkFields_eq, checkFields_eq]
  refine Run.agree_ite (by rw [hs.isLazy_eq, hequal]) (fun _ => agree_accept) fun _ => ?_
  refine Run.agree_firstAlong (hf.imp fun e f h => ?_)
  rw [← h.1]
  exact agree_checkField ho hs ih e.1 h.2

theorem agree_checkAggregate (hd : Akin dst dst') (hs : Twin backing src src') (ih : c.AgreeInside backing src src') :
    Run.Agree BothNone (c.checkAggregate dst src) (c.checkAggregate dst' src') := by
  have hkd := Ty.kind_eq_of_equal hd.equal
  have hks := Ty.kind_eq_of_equal hs.equal
  have hfields := agree_checkFields hd.fields (Ty.optional_eq_of_equal hd.equal) hs ih
  rw [checkAggregate_eq, checkAggregate_eq]
  refine Run.agree_ite (by rw [hs.isLazy_eq]) (fun _ => ?_) fun _ => ?_
  · exact Run.agree_ite (by rw [hkd, hks]) (fun _ => hfields) fun _ => agree_reject
  refine Run.agree_ite (by rw [hks, Ty.selection?_congr hd.equal hs.equal]) (fun _ => agree_accept) fun _ => ?_
  exact Run.agree_ite (by rw [hkd, hks]) (fun _ => hfields) fun _ => agree_reject

end Aggregates

/-- Types of the same form have expansions of the same form. -/
theorem agree_expand (hform : dst.form = dst'.form) :
    Run.Agree (Option.Rel fun x y : Ty => x.form = y.form) (dst.expand c.audit) (dst'.expand c.audit) := by
  refine .ok (outcome_expand _ _) (outcome_expand _ _) ?_
  cases hx : dst.expansion? with
  | some expanded =>
    obtain ⟨expanded', hx', hform'⟩ := expansion?_of_form_eq hform hx
    rw [hx']
    exact .some hform'
  | none =>
    cases hx' : dst'.expansion? with
    | none => exact .none
    | some expanded' =>
      obtain ⟨expanded, hx'', -⟩ := expansion?_of_form_eq hform.symm hx'
      rw [hx] at hx''
      cases hx''

theorem akin_of_form_eq (hform : dst.form = dst'.form) (htoken : Token.same dst.token dst'.token = true) :
    Akin dst dst' := by
  refine ⟨Ty.equal_iff.2 ⟨?_, htoken⟩, .inl hform⟩
  rw [hform]
  exact (Ty.alike_of_equal (Ty.equal_self dst')).1

/-- Tables with the same fields and tokens that mean the same. -/
inductive TablesAlike : Ty → Ty → Prop
  | intro (fields : NameMap Ty) {s t : Option Token} (h : Token.same s t = true) (sources sources' : NameSet) :
      TablesAlike (.node (.aggregate .table false fields) s sources) (.node (.aggregate .table false fields) t sources')

/-- Entities with tokens of one key stand for tables that are alike. -/
theorem agree_expandEntity (hc : c.Keyed) (hd : dst.equal dst' = true) :
    Run.Agree (Option.Rel TablesAlike) (Run.lift (dst.expandEntity c.audit c.entities))
      (Run.lift (dst'.expandEntity c.audit c.entities)) := by
  have htoken := (Ty.alike_of_equal hd).2
  unfold Ty.expandEntity
  rw [← Ty.kind_eq_of_equal hd]
  split
  · next s look hk hs he =>
    cases ht : dst'.token with
    | none =>
      rw [hs, ht] at htoken
      cases htoken
    | some t =>
      rw [hs, ht] at htoken
      have hlook : look s = look t := hc look s t he (of_decide_eq_true htoken)
      rw [hk, he]
      simp only [hlook, audited_aggregate]
      cases look t with
      | error fault => exact .fault rfl rfl
      | ok found =>
        cases found with
        | none => exact .ok rfl rfl .none
        | some entity => exact .ok rfl rfl (.some (.intro entity.fields htoken _ _))
  · next hother =>
    split
    · next t look hk ht he =>
      cases hs : dst.token with
      | none =>
        rw [hs, ht] at htoken
        cases htoken
      | some s => exact (hother s look hk hs he).elim
    · exact .ok rfl rfl .none

/-- A lazy destination is one that the directory knows, and as such of the same form in both checks. -/
theorem agree_checkLazy (hd : Akin dst dst') (hlazy : dst.isLazy = true) (hs : Twin backing src src')
    (ih : c.AgreeInside backing src src') : Run.Agree BothNone (c.checkLazy dst src) (c.checkLazy dst' src') := by
  have hkd := Ty.kind_eq_of_equal hd.equal
  have hks := Ty.kind_eq_of_equal hs.equal
  have hform : dst.form = dst'.form := by
    obtain hform | ⟨heager, -⟩ := hd.eager
    · exact hform
    · rw [heager.here] at hlazy
      cases hlazy
  rw [checkLazy_eq, checkLazy_eq]
  refine Run.agree_ite (by rw [hs.isLazy_eq]) (fun hlazy => ?_) fun _ => ?_
  · rw [hs.left.isLazy_eq_false] at hlazy
    cases hlazy
  refine Run.agree_ite (by rw [hkd, hks]) (fun _ => ?_) fun _ => agree_reject
  refine Run.agree_bind (agree_expand hform) ?_
  rintro _ _ (⟨hform⟩ | _)
  · exact agree_checkFields (Ty.akin_fields_of_form_eq hform) (by rw [Ty.optional, hform, Ty.optional]) hs ih
  · exact agree_reject

theorem agree_checkEntity (hc : c.Keyed) (hd : Akin dst dst') (hs : Twin backing src src')
    (ih : c.AgreeInside backing src src') :
    Run.Agree BothNone (c.checkEntity dst src) (c.checkEntity dst' src') := by
  rw [checkEntity_eq, checkEntity_eq]
  refine Run.agree_bind (agree_expandEntity hc hd.equal) ?_
  rintro _ _ (⟨⟨fields, hsame, sources, sources'⟩⟩ | _)
  · have halike : ∀ shape, Run.Agree BothNone
        (c.checkAggregate (.node (.aggregate shape false fields) _ sources) src)
        (c.checkAggregate (.node (.aggregate shape false fields) _ sources') src') :=
      fun shape => agree_checkAggregate (akin_of_form_eq rfl hsame) hs ih
    have hks := Ty.kind_eq_of_equal hs.equal
    refine Run.agree_ite (by rw [Ty.isTable, Ty.isTable, hks]) (fun _ => halike .table) fun _ => ?_
    rw [toRecord_table, toRecord_table]
    exact halike .record
  · exact agree_reject

/-- Checks of twins against destinations that are akin agree. -/
theorem agree_check (hc : c.Keyed) (hd : Akin dst dst') (hs : Twin backing src src') :
    Run.Agree BothNone (c.check dst src) (c.check dst' src') := by
  induction src using Ty.weightInduction generalizing src' dst dst' with
  | step src ih =>
    have hkd := Ty.kind_eq_of_equal hd.equal
    have hks := Ty.kind_eq_of_equal hs.equal
    have hinside : c.AgreeInside backing src src' :=
      fun name actual actual' hactual _ htwin _ _ he => ih actual (Ty.weight_lt_of_field? hactual) he htwin
    rw [check_eq, check_eq]
    refine Run.agree_ite (by rw [hkd, hks]) (fun _ => agree_reject) fun _ => ?_
    refine Run.agree_ite (by rw [hkd, hks]) (fun _ => agree_accept) fun _ => ?_
    refine Run.agree_ite (by rw [hks]) (fun _ => agree_acceptIf (by rw [hkd])) fun _ => ?_
    refine Run.agree_ite (by rw [hkd, hks]) (fun hr => ?_) fun _ => ?_
    · rw [← Ty.superkind_eq_of_equal hs.equal]
      cases hplain : Ty.ofKind src.superkind with
      | error fault => exact .fault rfl rfl
      | ok base =>
        have hagree := ih base (weight_ofKind_lt hr.1 hplain) hd (Ty.twin_ofKind hplain)
        exact Run.agree_bind hagree fun _ _ h => agree_acceptIf h
    obtain ⟨halike, htoken⟩ := Ty.alike_of_equal hd.equal
    generalize hf : dst.form = f at halike
    generalize hg : dst'.form = g at halike
    cases halike with
    | aggregate => exact agree_checkAggregate hd hs hinside
    | lazy => exact agree_checkLazy hd (Ty.isLazy_iff.2 ⟨_, _, _, hf⟩) hs hinside
    | enum hv =>
      refine agree_acceptIf ?_
      rw [hks, Ty.superkind_eq_of_equal hs.equal, Rules.valuesAccept_congr _ hv (Ty.values_agree_of_equal hs.equal)]
    | choices => exact agree_acceptIf (leafAccepts_congr hd.equal hs.equal)
    | @leaf k hleaf hleaf' =>
      by_cases hk : k = .dataEntity
      · subst hk
        dsimp only
        rw [hks, Token.compatible_congr htoken (Ty.alike_of_equal hs.equal).2]
        refine Run.agree_ite Iff.rfl (fun _ => agree_accept) fun _ => ?_
        refine Run.agree_ite (by rw [Ty.isEager, Ty.isEager, hks]) (fun _ => ?_) fun _ => agree_reject
        exact agree_checkEntity hc hd hs hinside
      · cases k <;> first
          | exact absurd rfl hk
          | exact agree_acceptIf (leafAccepts_congr hd.equal hs.equal)

end Checker

end FormulaTypes
