import FormulaTypes.Proofs.Checker.Acceptance
import FormulaTypes.Proofs.Kind
import FormulaTypes.Proofs.NameMap
import FormulaTypes.Proofs.Ty.Form

/-!
# Equal types and sources in acceptance

* Literals that are accepted under exact rules are those of the destination (`Rules.valuesAccept_iff`).
* Sources of a destination do not matter (`fits_of_form_eq`).
* Equal types are accepted without any resolver being asked, `void` aside (`check_of_equal`), so that they fit each
  other (`fits_of_equal`, `accepts_of_equal`).
-/

namespace FormulaTypes

/-- Under exact rules every literal of the source is in the destination. -/
theorem Rules.valuesAccept_iff {r : Rules} (hr : r.exact = true) {vs ws : Values} :
    r.valuesAccept vs ws = true ↔ ∀ e ∈ ws.entries, ∃ value, vs.find? e.1 = some value ∧ value.same e.2 = true := by
  rw [valuesAccept_eq, Values.equal_eq_agree, Bool.or_eq_true, Values.agree_iff, eachValueAccepted, List.all_eq_true]
  constructor
  · rintro (h | h) e he
    · obtain ⟨f, hf, hname, hsame⟩ := NameMap.exists_mem_of_forall₂ h.flip he
      exact ⟨f.2, hname ▸ NameMap.find?_of_mem vs.ordered hf, hsame⟩
    · have hfound := h e he
      split at hfound
      · next value hvalue => exact ⟨value, hvalue, hfound⟩
      · rw [hr] at hfound
        cases hfound
  · intro h
    refine .inr fun e he => ?_
    obtain ⟨value, hvalue, hsame⟩ := h e he
    rw [hvalue]
    exact hsame

namespace Checker

variable {c : Checker} {dst src : Ty}

/-- A type that is no enum is compared with a destination that does not take everything. -/
theorem compared_of_isConcrete (hd : dst.kind ≠ .void ∧ dst.kind ≠ .error) (hs : src.kind.isConcrete = true) :
    Compared dst src ∧ src.kind ≠ .enum := by
  have hne : ∀ k : Kind, k.isConcrete = false → src.kind ≠ k := by
    rintro k hk rfl
    rw [hs] at hk
    cases hk
  refine ⟨⟨?_, ?_, hne _ rfl⟩, hne _ rfl⟩
  · exact not_or.2 ⟨hd.1, hne _ rfl⟩
  · exact not_or.2 ⟨hne _ rfl, not_or.2 ⟨hd.2, hne _ rfl⟩⟩

/-- Aggregates are compared with aggregates. -/
theorem compared_of_isAggregate (hd : dst.isAggregate = true) (hs : src.isAggregate = true) :
    Compared dst src ∧ src.kind ≠ .enum := by
  refine compared_of_isConcrete ?_ (Kind.isConcrete_of_isAggregate hs)
  exact ⟨Ty.kind_ne_of_isAggregate hd rfl, Ty.kind_ne_of_isAggregate hd rfl⟩

/-- A type of a kind that goes without further parts is no enum. -/
theorem kind_ofKind {k : Kind} {t : Ty} (h : Ty.ofKind k = .ok t) : t.kind = k ∧ k ≠ .enum := by
  cases k <;> simp [Ty.ofKind, Ty.plainForm?, Kind.isLeaf, Kind.isValid] at h <;> subst h <;> exact ⟨rfl, by decide⟩

/-! ## Sources do not matter -/

section Sources

variable {dst' : Ty} (hform : dst.form = dst'.form) (htoken : dst.token = dst'.token)

include hform

theorem kind_eq_of_form_eq : dst.kind = dst'.kind := by
  rw [Ty.kind, hform, Ty.kind]

/-- The expansions of a type and of one that differs in its sources have the same form. -/
theorem expansion?_of_form_eq {expanded : Ty} (h : dst.expansion? = some expanded) :
    ∃ expanded', dst'.expansion? = some expanded' ∧ expanded.form = expanded'.form := by
  obtain ⟨form, token, sources⟩ := dst
  obtain ⟨form', token', sources'⟩ := dst'
  obtain rfl : form = form' := hform
  cases form with
  | lazy isTable optional provider =>
    cases provider with
    | none =>
      cases h
      exact ⟨_, rfl, rfl⟩
    | some p =>
      rw [Ty.expansion?, Option.map_eq_some_iff] at h
      obtain ⟨fields, hfields, rfl⟩ := h
      refine ⟨.node (.aggregate _ optional fields) token' sources', ?_, rfl⟩
      rw [Ty.expansion?, hfields, Option.map_some]
  | leaf | enum | choices | aggregate =>
    cases h
    exact ⟨_, rfl, rfl⟩

include htoken

/-- What fits a destination fits one that differs in its sources only: no rule looks at them. -/
theorem fits_of_form_eq (h : c.Fits dst src) : c.Fits dst' src := by
  have hkind := kind_eq_of_form_eq hform
  have hcompared : ∀ {src}, Compared dst src → Compared dst' src := fun hc =>
    ⟨hkind ▸ hc.void, hkind ▸ hc.free, hc.deferred⟩
  induction src using Ty.weightInduction with
  | step src ih =>
    refine FitsRule.fits ?_
    cases fitsRule_of_fits h with
    | free hd hs h => exact .free (hkind ▸ hd) hs (hkind ▸ h)
    | deferred hd hs h => exact .deferred (hkind ▸ hd) hs (hkind ▸ h)
    | @restricted hc hs hd base hbase h =>
      exact .restricted (hcompared hc) hs (hkind ▸ hd) hbase (ih base (weight_ofKind_lt hs hbase) h)
    | aggregate hc hs hf h => exact .aggregate (hcompared hc) hs (hform ▸ hf) (fitsAggregate_of_form_eq hform h)
    | shape hc hs hf hl hk h => exact .shape (hcompared hc) hs (hform ▸ hf) hl (hkind ▸ hk) h
    | expansion hc hs hf hl hk hx h =>
      obtain ⟨expanded', hx', hform'⟩ := expansion?_of_form_eq hform hx
      exact .expansion (hcompared hc) hs (hform ▸ hf) hl (hkind ▸ hk) hx' (fitsFields_of_form_eq hform' h)
    | literals hc hf hs hk h => exact .literals (hcompared hc) (hform ▸ hf) hs hk h
    | token hc hs hf hsrc h => exact .token (hcompared hc) hs (hform ▸ hf) hsrc (htoken ▸ h)
    | entity hc hs hf he ht hl hfound h =>
      exact .entity (hcompared hc) hs (hform ▸ hf) he (htoken ▸ ht) hl hfound h
    | plain hc hs hd hf h =>
      refine .plain (hcompared hc) hs (hkind ▸ hd) (hform ▸ hf) ?_
      rwa [leafAccepts, ← hkind, ← htoken]

end Sources

/-! ## Equal types -/

/-- A plain type accepts the types of its kind with a token that means the same. -/
theorem leafAccepts_of_kind_eq (hkind : dst.kind = src.kind) (htoken : Token.same dst.token src.token = true) :
    c.leafAccepts dst src = true := by
  unfold leafAccepts
  split
  · next hp => simp [← hkind, hp]
  · split
    · simp [hkind, Token.compatible_of_same htoken]
    · simp [hkind, Rules.kindAccepts]

/-- Equal types are accepted at once, `void` aside: no field is demanded, and no entity looked up. -/
theorem check_of_equal (h : dst.equal src = true) (hd : dst.kind ≠ .void) : c.check dst src = accept := by
  have hkind := Ty.kind_eq_of_equal h
  obtain ⟨halike, htoken⟩ := Ty.alike_of_equal h
  rw [check_eq, if_neg (by simp [← hkind, hd]), ite_eq_left_iff]
  intro _
  by_cases hdeferred : src.kind = .deferred
  · rw [if_pos hdeferred, hkind, hdeferred]
    rfl
  rw [if_neg hdeferred, if_neg fun hr => hr.2 (hkind.trans hr.1)]
  generalize hf : dst.form = f at halike
  generalize hg : src.form = g at halike
  cases halike with
  | @leaf k hk hk' =>
    by_cases hentity : k = .dataEntity
    · subst hentity
      exact if_pos (by simp [Ty.kind_of_form hg, Form.kind, Token.compatible_of_same htoken])
    · split <;> simp_all [acceptIf, leafAccepts_of_kind_eq hkind htoken]
  | @enum k vs ws hv =>
    have hvalues : src.values = ws := by rw [Ty.values, hg]
    have hsuper : src.superkind = k := by rw [Ty.superkind, hg]
    have haccepts : c.rules.valuesAccept vs src.values = true := by
      rw [Rules.valuesAccept_eq, hvalues, Values.equal_eq_agree, hv, Bool.true_or]
    exact if_pos (by simp [Ty.kind_of_form hg, Form.kind, hsuper, haccepts])
  | @choices choice fs gs hfs => exact if_pos (leafAccepts_of_kind_eq hkind htoken)
  | @aggregate shape optional fs gs hfs =>
    have hlazy : src.isLazy = false := by
      rw [Ty.isLazy, Ty.kind_of_form hg, Form.kind]
      cases shape <;> rfl
    have hvalue : src.kind ≠ .optionSetValue := by
      rw [Ty.kind_of_form hg, Form.kind]
      cases shape <;> decide
    have hfields : fieldsEqual dst.fields src.fields = true := by
      rw [fieldsEqual_iff, Ty.fields, hf, Ty.fields, hg]
      exact hfs
    dsimp only
    rw [checkAggregate_eq, if_neg (by simp [hlazy]), if_neg (by simp [hvalue]), if_pos hkind, checkFields_eq,
      if_pos (by simp [hlazy, hfields])]
  | @lazy isTable optional p q hp =>
    have hlazy : src.isLazy = true := Ty.isLazy_iff.2 ⟨_, _, _, hg⟩
    have hshape : sameLazyShape dst.provider? src.provider? = pure true := by
      rw [Ty.provider?, hf, Ty.provider?, hg]
      cases p <;> cases q <;> simp_all [sameLazyShape, Provider.sameShape?]
    dsimp only
    rw [checkLazy_eq, if_pos hlazy, if_pos hkind.symm, hshape]
    rfl

/-- Equal types fit each other, `void` aside. -/
theorem fits_of_equal (h : dst.equal src = true) (hd : dst.kind ≠ .void) : c.Fits dst src := by
  rw [Fits, check_of_equal h hd]
  rfl

theorem accepts_eq_pure (h : c.check dst src = accept) : c.accepts dst src = pure true := by
  rw [accepts, h]
  rfl

/-- **Equal types accept each other**, `void` aside, whatever the rules and the directory are, and so does every type
accept itself. The answer is there at once: no field is demanded on the way to it. -/
theorem accepts_of_equal (hv : dst.kind ≠ .void) :
    c.accepts dst dst = pure true ∧
      ∀ src, dst.equal src = true → c.accepts dst src = pure true ∧ c.accepts src dst = pure true := by
  refine ⟨accepts_eq_pure (check_of_equal (Ty.equal_self dst) hv), fun src h => ⟨?_, ?_⟩⟩
  · exact accepts_eq_pure (check_of_equal h hv)
  · exact accepts_eq_pure (check_of_equal (Ty.equal_symm h) (Ty.kind_eq_of_equal h ▸ hv))

/-- A record of an enum of one number, of a record on demand that may not be expanded, and of `void`. -/
def closedRecord (number : Number.Double) (resolved : Kind) (sources : NameSet) : Ty :=
  .node (.aggregate .record false
    [(Bytes.ofString "A", .ofForm (.enum .number (.ofList [(Bytes.ofString "x", .number number)]))),
     (Bytes.ofString "B", .ofForm (.lazy false false (some ⟨Bytes.ofString "p", false,
       [(Bytes.ofString "V", .host (some (.ofForm (Ty.bareForm resolved))))], none⟩))),
     (Bytes.ofString "C", .ofForm (Ty.bareForm .void))]) (some ⟨Bytes.ofString "t", none⟩) sources

/-- A source of its own. -/
def otherSource : NameSet := .ofList [Bytes.ofString "ledger"]

/-- The two are not a number each in its own way, and their fields on demand resolve to different types. -/
theorem accepts_of_equal_closedRecord :
    (closedRecord ⟨0x7FF8000000000000⟩ .number ∅).kind ≠ .void ∧
      (closedRecord ⟨0x7FF8000000000000⟩ .number ∅).equal (closedRecord ⟨0x7FF8000000000001⟩ .string otherSource) =
        true ∧
      (∀ c : Checker, c.accepts (closedRecord ⟨0x7FF8000000000000⟩ .number ∅)
        (closedRecord ⟨0x7FF8000000000001⟩ .string otherSource) = pure true) := by
  have hv : (closedRecord ⟨0x7FF8000000000000⟩ .number ∅).kind ≠ .void := by decide
  have h : (closedRecord ⟨0x7FF8000000000000⟩ .number ∅).equal (closedRecord ⟨0x7FF8000000000001⟩ .string otherSource) =
      true := by decide +kernel
  exact ⟨hv, h, fun c => ((accepts_of_equal hv).2 _ h).1⟩

end Checker

end FormulaTypes
