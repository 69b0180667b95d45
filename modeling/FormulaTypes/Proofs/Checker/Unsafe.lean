import FormulaTypes.Proofs.Checker.CoercionSound
import FormulaTypes.Proofs.Checker.Mismatch

/-!
# Where unsafe coercions come from

A coercion that may fail at run time always has text or untyped data behind it: a source of such a kind that is not
accepted, at the end of a path of fields that source and destination share (`exists_refusesLoose`). Of the rules of
`Converts` only two are unsafe by themselves, and the rule for fields is unsafe only where one of the fields is.
-/

namespace FormulaTypes

/-- Texts, enums of texts, and untyped data. -/
def Ty.isLoose (t : Ty) : Bool :=
  t.kind = .string || (t.kind = .enum && t.superkind = .string) || t.kind = .untypedObject

/-- What is reached from a destination along a path of fields; where it is lazy, through its expansion. -/
def Ty.reach? : Ty → FieldPath → Option Ty
  | t, [] => some t
  | t, name :: rest => (t.expansion?.bind (·.field? name)).bind (reach? · rest)

/-- Only texts are converted unsafely by their kind. -/
theorem Kind.eq_string_of_conversion? {dst src : Kind} (h : dst.conversion? src = some false) : src = .string := by
  unfold conversion? at h
  split at h <;> try cases h
  -- the rows for texts are left, and the rule for dates and numbers, which is safe
  any_goals rfl
  split_ifs at h <;> cases h

theorem kind_of_leafConversion? {src : Ty} {dst : Kind} (h : leafConversion? src dst = some false) :
    src.kind = .string := by
  unfold leafConversion? at h
  split at h
  · cases h
  split at h
  · split at h <;> cases h
  · exact Kind.eq_string_of_conversion? h

namespace Checker

variable {c : Checker} {f : CoercionFlags} {src dst wanted : Ty} {r : Coercion} {path : FieldPath}

/-- At the end of the path the source has texts or untyped data that are not accepted there. -/
def RefusesLoose (c : Checker) (dst src : Ty) (path : FieldPath) : Prop :=
  ∃ actual expected, src.walk? path = some actual ∧ dst.reach? path = some expected ∧ actual.isLoose = true ∧
    c.Refuses expected actual

/-- What is refused in a field is refused under its name. -/
theorem RefusesLoose.under {name : Bytes} {actual expected : Ty} (hs : src.field? name = some actual)
    (hx : dst.expansion? = some wanted) (hd : wanted.field? name = some expected)
    (h : c.RefusesLoose expected actual path) : c.RefusesLoose dst src (name :: path) := by
  obtain ⟨leaf, asked, hleaf, hasked, hloose, hrefused⟩ := h
  refine ⟨leaf, asked, ?_, ?_, hloose, hrefused⟩
  · rw [Ty.walk?, hs]
    exact hleaf
  · rw [Ty.reach?, hx, Option.bind_some, hd]
    exact hasked

/-- Of plain values only texts are converted unsafely. -/
theorem kind_of_unsafe (h : c.Converts f src dst r) (hs : src.kind.isPrimitive = true) (hr : r.safe = false) :
    src.kind = .string := by
  cases h with
  | accepted | absent => cases hr
  | restricted _ he =>
    rw [he] at hs
    cases hs
  | untyped _ hu =>
    rw [hu] at hs
    cases hs
  | plain _ _ _ _ _ _ hsafe => exact kind_of_leafConversion? (hsafe.trans (congrArg some hr))
  | fields _ ha => exact absurd rfl (Ty.kind_ne_of_isAggregate ha (Kind.of_isPrimitive hs).2.1)

/-- An aggregate is converted unsafely only if one of the fields that both sides have is. -/
theorem exists_unsafe_field {shape : Shape} {optional : Bool} {fields : List (Bytes × Ty)}
    {conv : Bytes × Ty → Coercion}
    (h : (Coercion.ofFields shape optional (fields.filterMap (Run.kept (src.answer conv)))).safe = false) :
    ∃ e ∈ fields, ∃ actual, src.field? e.1 = some actual ∧ (conv e).safe = false := by
  obtain ⟨kept, hkept, hsafe⟩ := List.all_eq_false.1 h
  obtain ⟨e, he, hanswer⟩ := List.mem_filterMap.1 hkept
  obtain ⟨_, hconv, rfl⟩ := Option.map_eq_some_iff.1 hanswer
  obtain ⟨actual, hactual, rfl⟩ := Option.map_eq_some_iff.1 hconv
  exact ⟨e, he, actual, hactual, by simpa using hsafe⟩

/-- Behind every unsafe conversion there is such a place. -/
theorem exists_refusesLoose (h : c.Converts f src dst r) (hs : src.Sound) (hd : dst.InOrder) (hr : r.safe = false) :
    ∃ path, c.RefusesLoose dst src path := by
  induction h with
  | accepted | absent => cases hr
  | @restricted f src dst base r h he hbase hr' ih =>
    have hprimitive : base.kind.isPrimitive = true := by
      rw [(kind_ofKind hbase).1]
      exact Ty.superkind_isPrimitive hs.valid he
    have hstring : src.superkind = .string := (kind_ofKind hbase).1 ▸ kind_of_unsafe hr' hprimitive hr
    exact ⟨[], src, dst, rfl, rfl, by simp [Ty.isLoose, he, hstring], h.refused⟩
  | @untyped f src dst h hu => exact ⟨[], src, dst, rfl, rfl, by simp [Ty.isLoose, hu], h.refused⟩
  | @plain f src dst safe h _ _ _ _ _ hsafe =>
    have hstring : src.kind = .string := kind_of_leafConversion? (hsafe.trans (congrArg some hr))
    exact ⟨[], src, dst, rfl, rfl, by simp [Ty.isLoose, hstring], h.refused⟩
  | @fields f src dst wanted shaped h hsa hda hlazy hx shape optional fields hform _ _ conv _ _ ih =>
    obtain ⟨e, he, actual, hactual, hrefuses⟩ := exists_unsafe_field hr
    have hwanted := inOrder_expansion hd hx
    have hfields : wanted.fields = fields := by rw [Ty.fields, hform]
    have hordered : NameMap.Ordered fields := hfields ▸ Ty.ordered_fields_of_form (Ty.Everywhere.here hwanted)
    have hexpected : wanted.field? e.1 = some e.2 := by
      rw [Ty.field?_of_isEager (Ty.isEager_iff.2 ⟨_, _, _, hform⟩), hfields]
      exact NameMap.find?_of_mem hordered he
    obtain ⟨path, hpath⟩ := ih e he actual hactual (hs.part (Ty.mem_parts_of_field? hactual))
      (Ty.Everywhere.part hwanted (Ty.mem_parts_of_mem_fields (hfields ▸ he))) hrefuses
    exact ⟨e.1 :: path, hpath.under hactual hx hexpected⟩

/-- **Unsafe coercions come from texts and untyped data only.** If a value can be converted and the conversion may fail,
then at the end of some path of fields that both types have the source is text, an enum of texts or untyped data, and
the destination there does not accept it. A source without such a place is only ever converted safely. -/
theorem coerce_unsafe_of_loose (hs : src.Sound) (hd : dst.InOrder)
    (h : (c.coerce f src dst).outcome = .ok (some r)) :
    (r.safe = false → ∃ path, c.RefusesLoose dst src path) ∧
      ((∀ path actual, src.walk? path = some actual → actual.isLoose = false) → r.safe = true) := by
  have hrefuses := exists_refusesLoose (converts_of_coerce h) hs hd
  refine ⟨hrefuses, fun hfirm => ?_⟩
  by_contra hr
  obtain ⟨path, actual, expected, hactual, -, hloose, -⟩ := hrefuses (by simpa using hr)
  rw [hfirm path actual hactual] at hloose
  cases hloose

/-- The enum of texts in a record is behind its unsafe coercion to a table of numbers on demand. -/
theorem coerce_unsafe_of_loose_namedRecord :
    namedRecord.Sound ∧ demandedNumbers.InOrder ∧ (auditor.coerce ⟨true, true⟩ namedRecord demandedNumbers).outcome =
        .ok (some ⟨false, .ofForm (.aggregate .table true [(Bytes.ofString "A", .ofForm (Ty.bareForm .number))])⟩) ∧
      ∃ path, auditor.RefusesLoose demandedNumbers namedRecord path := by
  have hs : namedRecord.Sound := by decide +kernel
  have hd : demandedNumbers.InOrder := by decide +kernel
  have h := coerce_of_converts converts_namedRecord
  exact ⟨hs, hd, h, (coerce_unsafe_of_loose hs hd h).1 rfl⟩

end Checker

end FormulaTypes
