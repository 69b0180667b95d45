import Mathlib.Data.List.Forall2
import FormulaTypes.Ty.Equality
import FormulaTypes.Ty.Weight

/-!
# Equality of types is structural

* Equal types have the same digest (`Ty.digest_eq_of_equal`), so that the digests and lengths that equality compares
  along the way decide nothing (`fieldsEqual_iff`).
* Two types are equal if their forms are alike, with equal types in their fields, and their tokens mean the same
  (`Ty.equal_iff`).
* Equality is an equivalence (`Ty.equal_self`, `Ty.equal_symm`, `Ty.equal_trans`).
-/

namespace FormulaTypes

/-! ## Equality of the parts -/

theorem Token.same_trans {a b c : Option Token} (h : Token.same a b = true) (k : Token.same b c = true) :
    Token.same a c = true := by
  cases a <;> cases b <;> cases c <;> simp_all [Token.same]

theorem Literal.same_trans {a b c : Literal} (h : a.same b = true) (k : b.same c = true) : a.same c = true := by
  cases a <;> cases b <;> cases c <;> simp_all [Literal.same, Number.Double.same]

theorem Token.message_eq_of_same {a b : Option Token} (h : Token.same a b = true) :
    Token.message a = Token.message b := by
  cases a <;> cases b <;> simp_all [Token.same, Token.message]

theorem Token.isSome_eq_of_same {a b : Option Token} (h : Token.same a b = true) : a.isSome = b.isSome := by
  cases a <;> cases b <;> simp_all [Token.same]

namespace Values

theorem entriesAgree_iff {vs ws : NameMap Literal} :
    entriesAgree vs ws = true ↔ List.Forall₂ (fun e f => e.1 = f.1 ∧ e.2.same f.2 = true) vs ws := by
  induction vs generalizing ws with
  | nil => cases ws <;> simp [entriesAgree]
  | cons e vs ih =>
    cases ws with
    | nil => simp [entriesAgree]
    | cons f ws => simp [entriesAgree, ih]

/-- Literals agree if they stand under the same names and are equal, entry by entry. -/
theorem agree_iff {vs ws : Values} :
    agree vs ws = true ↔ List.Forall₂ (fun e f => e.1 = f.1 ∧ e.2.same f.2 = true) vs.entries ws.entries :=
  entriesAgree_iff

theorem agree_symm {vs ws : Values} (h : agree vs ws = true) : agree ws vs = true := by
  rw [agree_iff] at h ⊢
  refine h.flip.imp ?_
  rintro e f ⟨hname, hsame⟩
  exact ⟨hname.symm, by rw [Literal.same_symm]; exact hsame⟩

theorem entriesAgree_trans {vs ws xs : NameMap Literal} (h : entriesAgree vs ws = true)
    (k : entriesAgree ws xs = true) : entriesAgree vs xs = true := by
  induction vs generalizing ws xs with
  | nil =>
    cases ws with
    | nil => exact k
    | cons => simp [entriesAgree] at h
  | cons e vs ih =>
    cases ws with
    | nil => simp [entriesAgree] at h
    | cons f ws =>
      cases xs with
      | nil => simp [entriesAgree] at k
      | cons g xs =>
        simp only [entriesAgree, Bool.and_eq_true, decide_eq_true_eq] at h k ⊢
        exact ⟨⟨h.1.1.trans k.1.1, Literal.same_trans h.1.2 k.1.2⟩, ih h.2 k.2⟩

theorem agree_trans {vs ws xs : Values} (h : agree vs ws = true) (k : agree ws xs = true) : agree vs xs = true :=
  entriesAgree_trans h k

end Values

namespace Provider

variable {p q r : Option (Provider Ty)}

theorem sameShape?_self (p : Option (Provider Ty)) : sameShape? p p = true := by
  cases p <;> simp [sameShape?, sameShape]

theorem sameShape?_symm (h : sameShape? p q = true) : sameShape? q p = true := by
  cases p <;> cases q <;> simp_all [sameShape?, sameShape]

theorem sameShape?_trans (h : sameShape? p q = true) (k : sameShape? q r = true) : sameShape? p r = true := by
  cases p <;> cases q <;> cases r <;> simp_all [sameShape?, sameShape]

theorem message_eq_of_sameShape? (h : sameShape? p q = true) : message p = message q := by
  cases p with
  | none =>
    cases q with
    | none => rfl
    | some q => simp [sameShape?] at h
  | some p =>
    cases q with
    | none => simp [sameShape?] at h
    | some q =>
      simp only [sameShape?, sameShape, Bool.and_eq_true, decide_eq_true_eq] at h
      have hlen : p.resolvers.length = q.resolvers.length := by
        have := congrArg List.length h.2
        rwa [names, names, NameMap.names, NameMap.names, List.length_map, List.length_map] at this
      simp only [message, h.1, hlen]

end Provider

/-! ## Forms -/

/-- Field maps with the same names and equal types, entry by entry. -/
abbrev FieldsAlike : List (Bytes × Ty) → List (Bytes × Ty) → Prop :=
  List.Forall₂ fun e f => e.1 = f.1 ∧ e.2.equal f.2 = true

theorem fieldsAgree_iff {fs gs : List (Bytes × Ty)} : fieldsAgree fs gs = true ↔ FieldsAlike fs gs := by
  induction fs generalizing gs with
  | nil => cases gs <;> simp [fieldsAgree]
  | cons e fs ih =>
    cases gs with
    | nil => simp [fieldsAgree]
    | cons f gs => simp [fieldsAgree, ih]

/-- Forms that agree in everything, with equal types in their fields and providers of one shape. -/
inductive Form.Alike : Form Ty → Form Ty → Prop
  | leaf {k : Kind} (h h' : k.isLeaf = true) : Alike (.leaf k h) (.leaf k h')
  | enum {k : Kind} {vs ws : Values} (h : vs.agree ws = true) : Alike (.enum k vs) (.enum k ws)
  | choices {c : Choice} {fs gs : List (Bytes × Ty)} (h : FieldsAlike fs gs) : Alike (.choices c fs) (.choices c gs)
  | aggregate {x : Shape} {o : Bool} {fs gs : List (Bytes × Ty)} (h : FieldsAlike fs gs) :
      Alike (.aggregate x o fs) (.aggregate x o gs)
  | lazy {isTable o : Bool} {p q : Option (Provider Ty)} (h : Provider.sameShape? p q = true) :
      Alike (.lazy isTable o p) (.lazy isTable o q)

/-- Equal types are alike. -/
theorem Ty.alike_of_equal {t u : Ty} (h : t.equal u = true) :
    Form.Alike t.form u.form ∧ Token.same t.token u.token = true := by
  obtain ⟨f, s, _⟩ := t
  obtain ⟨g, s', _⟩ := u
  cases f <;> cases g <;> simp only [equal, Bool.and_eq_true, decide_eq_true_eq, Bool.false_eq_true] at h
  case leaf.leaf =>
    obtain ⟨rfl, hs⟩ := h
    exact ⟨.leaf _ _, hs⟩
  case enum.enum =>
    obtain ⟨⟨rfl, hs⟩, hv⟩ := h
    rw [Values.equal_eq_agree] at hv
    exact ⟨.enum hv, hs⟩
  case choices.choices =>
    obtain ⟨⟨rfl, hs⟩, ⟨-, hf⟩, -⟩ := h
    exact ⟨.choices (fieldsAgree_iff.1 hf), hs⟩
  case aggregate.aggregate =>
    obtain ⟨⟨⟨rfl, rfl⟩, hs⟩, ⟨-, hf⟩, -⟩ := h
    exact ⟨.aggregate (fieldsAgree_iff.1 hf), hs⟩
  case lazy.lazy =>
    obtain ⟨⟨⟨rfl, rfl⟩, hs⟩, hp⟩ := h
    exact ⟨.lazy hp, hs⟩

/-! ## Digests -/

/-- Fields contribute by their names and the digests of their types. -/
theorem fieldsMessage_eq_of_alike {fs gs : List (Bytes × Ty)}
    (hd : ∀ e ∈ fs, ∀ u : Ty, e.2.equal u = true → e.2.digest = u.digest) (h : FieldsAlike fs gs) :
    fieldsMessage fs = fieldsMessage gs := by
  induction h with
  | nil => rfl
  | @cons e f fs gs he hr ih =>
    have hdigest := hd e List.mem_cons_self f.2 he.2
    have hrest := ih fun e' he' => hd e' (List.mem_cons_of_mem _ he')
    rw [fieldsMessage, fieldsMessage, he.1, hdigest, hrest]

/-- Equal types have the same digest. -/
theorem Ty.digest_eq_of_equal {t u : Ty} (h : t.equal u = true) : t.digest = u.digest := by
  induction t using Ty.induction generalizing u with
  | step t ih =>
    obtain ⟨hform, htoken⟩ := alike_of_equal h
    have hmessage := Token.message_eq_of_same htoken
    obtain ⟨f, s, _⟩ := t
    obtain ⟨g, s', _⟩ := u
    simp only [form, token] at hform hmessage
    have hpart : ∀ {fs : List (Bytes × Ty)}, f.parts = fs.map Prod.snd →
        ∀ e ∈ fs, ∀ u : Ty, e.2.equal u = true → e.2.digest = u.digest := by
      intro fs hparts e he u hu
      refine ih e.2 ?_ hu
      rw [parts, form, hparts]
      exact List.mem_map_of_mem he
    cases hform with
    | leaf => simp only [digest, hmessage]
    | enum hv =>
      simp only [digest, hmessage, Values.digest, Values.length_eq_of_entriesAgree hv,
        Values.entriesMessage_eq_of_entriesAgree hv]
    | choices hf =>
      simp only [digest, hmessage, hf.length_eq, fieldsMessage_eq_of_alike (hpart rfl) hf]
    | aggregate hf =>
      simp only [digest, hmessage, hf.length_eq, fieldsMessage_eq_of_alike (hpart rfl) hf]
    | lazy hp => simp only [digest, hmessage, Provider.message_eq_of_sameShape? hp]

/-- Field maps that are alike have the same digest. -/
theorem fieldsDigest_eq_of_alike {fs gs : List (Bytes × Ty)} (h : FieldsAlike fs gs) :
    fieldsDigest fs = fieldsDigest gs := by
  have hmessage := fieldsMessage_eq_of_alike (fun e _ u hu => Ty.digest_eq_of_equal hu) h
  rw [fieldsDigest, fieldsDigest, h.length_eq, hmessage]

/-- Comparing lengths and digests as well changes nothing. -/
theorem fieldsEqual_iff {fs gs : NameMap Ty} : fieldsEqual fs gs = true ↔ FieldsAlike fs gs := by
  rw [fieldsEqual, Bool.and_eq_true, Bool.and_eq_true, fieldsAgree_iff]
  refine ⟨fun h => h.1.2, fun h => ⟨⟨?_, h⟩, ?_⟩⟩
  · exact decide_eq_true h.length_eq
  · exact decide_eq_true (fieldsDigest_eq_of_alike h)

namespace Ty

/-- Two types are equal if their forms are alike and their tokens mean the same. -/
theorem equal_iff {t u : Ty} : t.equal u = true ↔ Form.Alike t.form u.form ∧ Token.same t.token u.token = true := by
  refine ⟨alike_of_equal, ?_⟩
  rintro ⟨hform, htoken⟩
  obtain ⟨f, s, _⟩ := t
  obtain ⟨g, s', _⟩ := u
  simp only [form, token] at hform htoken
  cases hform with
  | leaf => simp [equal, htoken]
  | enum hv => simp [equal, htoken, Values.equal_eq_agree, hv]
  | choices hf =>
    simp [equal, htoken, fieldsAgree_iff.2 hf, hf.length_eq, fieldsDigest_eq_of_alike hf]
  | aggregate hf =>
    simp [equal, htoken, fieldsAgree_iff.2 hf, hf.length_eq, fieldsDigest_eq_of_alike hf]
  | lazy hp => simp [equal, htoken, hp]

/-! ## Equivalence -/

/-- Every type equals itself. -/
@[simp] theorem equal_self (t : Ty) : t.equal t = true := by
  induction t using Ty.induction with
  | step t ih =>
    have hfields : ∀ fs : List (Bytes × Ty), t.parts = fs.map Prod.snd → FieldsAlike fs fs := by
      intro fs hparts
      refine List.forall₂_same.2 fun e he => ⟨rfl, ih e.2 ?_⟩
      rw [hparts]
      exact List.mem_map_of_mem he
    refine equal_iff.2 ⟨?_, Token.same_self _⟩
    obtain ⟨f, s, _⟩ := t
    cases f with
    | leaf => exact .leaf _ _
    | enum => exact .enum (Values.agree_self _)
    | choices => exact .choices (hfields _ rfl)
    | aggregate => exact .aggregate (hfields _ rfl)
    | lazy => exact .lazy (Provider.sameShape?_self _)

/-- Types that differ in their sources only are equal. -/
theorem equal_of_form_eq {t u : Ty} (hform : t.form = u.form) (htoken : t.token = u.token) : t.equal u = true := by
  rw [equal_iff, hform, htoken]
  exact alike_of_equal (equal_self u)

/-- Equality goes both ways. -/
theorem equal_symm {t u : Ty} (h : t.equal u = true) : u.equal t = true := by
  induction t using Ty.induction generalizing u with
  | step t ih =>
    obtain ⟨hform, htoken⟩ := alike_of_equal h
    obtain ⟨f, s, _⟩ := t
    obtain ⟨g, s', _⟩ := u
    have hfields : ∀ fs gs : List (Bytes × Ty), f.parts = fs.map Prod.snd → FieldsAlike fs gs → FieldsAlike gs fs := by
      intro fs gs hparts halike
      refine (List.Forall₂.flip (List.forall₂_iff_zip.2 ⟨halike.length_eq, ?_⟩))
      intro e e' he
      obtain ⟨hname, heq⟩ := (List.forall₂_iff_zip.1 halike).2 he
      refine ⟨hname.symm, ih e.2 ?_ heq⟩
      rw [parts, form, hparts]
      exact List.mem_map_of_mem (List.of_mem_zip he).1
    refine equal_iff.2 ⟨?_, by rw [Token.same_symm]; exact htoken⟩
    simp only [form] at hform ⊢
    cases hform with
    | leaf => exact .leaf _ _
    | enum hv => exact .enum (Values.agree_symm hv)
    | choices hf => exact .choices (hfields _ _ rfl hf)
    | aggregate hf => exact .aggregate (hfields _ _ rfl hf)
    | lazy hp => exact .lazy (Provider.sameShape?_symm hp)

theorem equal_comm (t u : Ty) : t.equal u = u.equal t := Bool.eq_iff_iff.2 ⟨equal_symm, equal_symm⟩

/-- Equality is transitive. -/
theorem equal_trans {t u v : Ty} (h : t.equal u = true) (k : u.equal v = true) : t.equal v = true := by
  induction t using Ty.induction generalizing u v with
  | step t ih =>
    obtain ⟨hform, htoken⟩ := alike_of_equal h
    obtain ⟨kform, ktoken⟩ := alike_of_equal k
    have hfields : ∀ fs gs hs : List (Bytes × Ty), t.parts = fs.map Prod.snd → FieldsAlike fs gs →
        FieldsAlike gs hs → FieldsAlike fs hs := by
      intro fs gs hs hparts hfg hgh
      have hmem : ∀ e ∈ fs, e.2 ∈ t.parts := by
        intro e he
        rw [hparts]
        exact List.mem_map_of_mem he
      clear hparts
      induction hfg generalizing hs with
      | nil =>
        cases hgh
        exact .nil
      | cons he _ ihr =>
        cases hgh with
        | cons hf hr =>
          refine .cons ⟨he.1.trans hf.1, ih _ (hmem _ List.mem_cons_self) he.2 hf.2⟩ ?_
          exact ihr _ hr fun e' he' => hmem e' (List.mem_cons_of_mem _ he')
    refine equal_iff.2 ⟨?_, Token.same_trans htoken ktoken⟩
    obtain ⟨f, s, _⟩ := t
    obtain ⟨g, s', _⟩ := u
    obtain ⟨g', s'', _⟩ := v
    simp only [form] at hform kform ⊢
    cases hform with
    | leaf => cases kform with | leaf => exact .leaf _ _
    | enum hv => cases kform with | enum hw => exact .enum (Values.agree_trans hv hw)
    | choices hf => cases kform with | choices hg => exact .choices (hfields _ _ _ rfl hf hg)
    | aggregate hf => cases kform with | aggregate hg => exact .aggregate (hfields _ _ _ rfl hf hg)
    | lazy hp => cases kform with | lazy hq => exact .lazy (Provider.sameShape?_trans hp hq)

end Ty

end FormulaTypes
