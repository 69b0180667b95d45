import FormulaTypes.Proofs.Spec.Exact
import FormulaTypes.Proofs.Spec.RoundTrip

/-!
# Types that a text can express

A type is refused a text exactly if no text stands for an equal type (`format_eq_error_iff`). For a type that is not
lossy its own text does (`Told.parse`). For a lossy one nothing does:

* the symbols of a text never spell a lossy type (`isLossy_of_spells`);
* equal types are lossy alike (`isLossy_eq_of_equal`).

The type has to be sound as far as its fields are at hand (`Ty.SoundAtHand`); what lazy fields resolve to does not
matter, since every lazy type is lossy.
-/

namespace FormulaTypes

namespace Ty

/-- The property holds of the type and of all types in its field maps, at any depth. What lazy fields resolve to is
left aside. -/
inductive Throughout (P : Ty → Prop) : Ty → Prop
  | intro {t : Ty} (here : P t) (fields : ∀ e ∈ t.fields, Throughout P e.2) : Throughout P t

/-- The maps are in order and the node is valid, in the type and in its field maps at any depth. -/
def SoundAtHand (t : Ty) : Prop := t.Throughout fun u => u.form.Ordered ∧ u.isValid = true

end Ty

namespace Spec

variable {t u : Ty}

/-! ## What is at hand -/

/-- In a type that is not lossy all is at hand. -/
theorem sound_of_lossless (h : t.SoundAtHand) (hl : isLossy t = false) : t.Sound := by
  induction h with
  | @intro t here _ ih =>
    refine .intro here fun part hpart => ?_
    obtain ⟨form, token, sources⟩ := t
    cases form with
    | leaf | enum => cases hpart
    | choices choice fields =>
      simp only [isLossy, Bool.or_eq_false_iff] at hl
      obtain rfl : fields = [] := by simpa using hl.2
      cases hpart
    | aggregate shape optional fields =>
      simp only [isLossy, Bool.or_eq_false_iff] at hl
      obtain ⟨e, he, rfl⟩ := List.mem_map.1 hpart
      exact ih e he (anyLossy_eq_false_iff.1 hl.2 e he)
    | lazy isTable optional provider =>
      simp only [isLossy, Bool.or_eq_false_iff] at hl
      obtain rfl : provider = none := by simpa using hl.2
      cases hpart

theorem anyUnlettered?_eq_none {fields : List (Bytes × Ty)} (h : ∀ e ∈ fields, unlettered? e.2 = none) :
    anyUnlettered? fields = none := by
  induction fields with
  | nil => rfl
  | cons e fields ih =>
    obtain ⟨hfirst, hrest⟩ := List.forall_mem_cons.1 h
    rw [anyUnlettered?, hfirst, Option.none_or, ih hrest]

theorem pastTable?_eq_none {k : Kind} (h : k.isValid = true) : pastTable? k = none := by
  cases k <;> first | rfl | cases h

/-- Every kind in a sound type has a letter. -/
theorem unlettered?_eq_none (h : t.SoundAtHand) : unlettered? t = none := by
  induction h with
  | @intro t here _ ih =>
    obtain ⟨form, token, sources⟩ := t
    cases form with
    | leaf k hk =>
      rw [unlettered?]
      exact pastTable?_eq_none (Ty.kind_isValid here.2)
    | enum superkind values =>
      rw [unlettered?]
      have hprimitive : superkind.isPrimitive = true := Ty.superkind_isPrimitive here.2 rfl
      cases superkind <;> first | rfl | cases hprimitive
    | choices | aggregate =>
      rw [unlettered?]
      exact anyUnlettered?_eq_none ih
    | lazy => rw [unlettered?]

/-! ## What texts stand for -/

/-- A literal that is read for a kind fits it. -/
theorem literalFits_of_literalOf {k : Kind} {text : Bytes} {l : Literal} (h : literalOf k text = .ok l) :
    literalFits k l = true := by
  unfold literalOf at h
  split at h
  · next hnumeric =>
    split at h
    · cases h
      exact hnumeric
    · cases h
  · next hnumeric =>
    split at h
    · next hboolean =>
      split at h
      · cases h
        exact decide_eq_true hboolean
      · split at h
        · cases h
          exact decide_eq_true hboolean
        · cases h
    · next hboolean =>
      cases h
      simp [literalFits, hnumeric, hboolean]

/-- A kind that goes without further parts is told by its letter. -/
theorem isLossy_of_plainForm? {k : Kind} {form : Form Ty} (h : Ty.plainForm? k = some form) :
    isLossy (Ty.ofForm form) = false := by
  unfold Ty.plainForm? at h
  split at h
  · split at h <;> cases h
    rfl
  · split at h <;> cases h <;> rfl

/-- The symbols of a text never spell a lossy type. -/
theorem isLossy_of_spells {syms : List Symbol} (h : Spells syms t) : isLossy t = false := by
  induction h with
  | plain _ hform => exact isLossy_of_plainForm? hform
  | @enum k entries hk hentries =>
    have hfits : ∀ e ∈ NameMap.ofList (entries.map Entry.bound), literalFits k e.2 = true := by
      refine (NameMap.all_nil.insertAll (P := fun l => literalFits k l = true) fun e he => ?_).holds
      obtain ⟨entry, hentry, rfl⟩ := List.mem_map.1 he
      obtain ⟨text, -, hliteral⟩ := hentries entry hentry
      exact literalFits_of_literalOf hliteral
    rw [Ty.ofForm, isLossy, Option.isSome_none, Bool.false_or, List.any_eq_false]
    intro e he
    simp [hfits e he]
  | @aggregate shape entries _ ih =>
    have hfields : ∀ e ∈ NameMap.ofList (entries.map Entry.bound), isLossy e.2 = false := by
      refine (NameMap.all_nil.insertAll (P := fun u => isLossy u = false) fun e he => ?_).holds
      obtain ⟨entry, hentry, rfl⟩ := List.mem_map.1 he
      exact ih entry hentry
    rw [Ty.ofForm, isLossy, anyLossy_eq_false_iff.2 hfields]
    rfl

/-! ## Equal types -/

theorem literalFits_eq_of_same (k : Kind) {l l' : Literal} (h : l.same l' = true) :
    literalFits k l = literalFits k l' := by
  cases l <;> cases l' <;> first | rfl | cases h

theorem anyLossy_eq_of_alike {fs gs : List (Bytes × Ty)}
    (h : NameMap.Paired (fun x y => isLossy x = isLossy y) fs gs) : anyLossy fs = anyLossy gs := by
  induction h with
  | nil => rfl
  | cons he _ ih => rw [anyLossy, anyLossy, he.2, ih]

/-- Equal types are lossy alike. -/
theorem isLossy_eq_of_equal (h : t.equal u = true) : isLossy t = isLossy u := by
  induction t using Ty.induction generalizing u with
  | step t ih =>
    obtain ⟨hform, htoken⟩ := Ty.alike_of_equal h
    obtain ⟨f, s, _⟩ := t
    obtain ⟨g, s', _⟩ := u
    have hsome : s.isSome = s'.isSome := Token.isSome_eq_of_same htoken
    simp only [Ty.form] at hform
    cases hform with
    | leaf => rw [isLossy, isLossy, hsome]
    | @enum k vs ws hv =>
      have hfits : (vs.entries.all fun e => literalFits k e.2) = ws.entries.all fun e => literalFits k e.2 :=
        NameMap.Paired.all_eq (R := fun x y => Literal.same x y = true) (Values.agree_iff.1 hv) fun x y hsame =>
          literalFits_eq_of_same k hsame
      rw [isLossy, isLossy, hsome, ← List.not_all_eq_any_not, ← List.not_all_eq_any_not, hfits]
    | @choices c fs gs hf =>
      have hempty : fs.isEmpty = gs.isEmpty := by cases hf <;> rfl
      rw [isLossy, isLossy, hsome, hempty]
    | @aggregate x o fs gs hf =>
      have hpaired : NameMap.Paired (fun x y => Ty.equal x y = true) fs gs := hf
      have hfields : NameMap.Paired (fun x y => isLossy x = isLossy y) fs gs :=
        hpaired.imp_of_mem fun e he f _ hequal => ih e.2 (List.mem_map_of_mem he) hequal
      rw [isLossy, isLossy, hsome, anyLossy_eq_of_alike hfields]
    | @lazy isTable o p q hp =>
      have hprovider : p.isSome = q.isSome := by
        cases p <;> cases q <;> first | rfl | cases hp
      rw [isLossy, isLossy, hsome, hprovider]

/-! ## Refusal -/

/-- A type that equals a type of a text is not lossy. -/
theorem isLossy_eq_false_of_parse {s : Bytes} (h : parse s = .ok u) (hu : u.equal t = true) : isLossy t = false := by
  obtain ⟨syms, -, hspells⟩ := exists_spells_of_parse h
  rw [← isLossy_eq_of_equal hu]
  exact isLossy_of_spells hspells

/-- **A type is refused a text exactly if no text stands for an equal type.** All of its kinds have letters, so that
there is a text to refuse. -/
theorem format_eq_error_iff (h : t.SoundAtHand) :
    printable t = .ok t ∧
      (format t = .error ⟨typeText t⟩ ↔ ¬ ∃ s u, parse s = .ok u ∧ u.equal t = true) := by
  refine ⟨by rw [printable, unlettered?_eq_none h], ?_⟩
  cases hl : isLossy t with
  | true =>
    refine iff_of_true (if_pos hl) ?_
    rintro ⟨s, u, hparse, hequal⟩
    rw [isLossy_eq_false_of_parse hparse hequal] at hl
    cases hl
  | false =>
    have hformat : format t = .ok (typeText t) := if_neg (by simp [hl])
    obtain ⟨syms, u, htold⟩ := exists_told (sound_of_lossless h hl) hl
    refine iff_of_false ?_ fun hnone => hnone ⟨_, u, htold.parse, htold.equal⟩
    rw [hformat]
    simp

/-- A record with a lazy field, whose own field would resolve to an enum of records, which is not valid. -/
def recordOfLazy : Ty :=
  .ofForm (.aggregate .record false
    [(Bytes.ofString "a", .ofForm (.lazy false false
      (some ⟨Bytes.ofString "p", true, [(Bytes.ofString "b", .host (some (.ofForm (.enum .record .empty))))], none⟩)))])

theorem format_eq_error_iff_recordOfLazy :
    recordOfLazy.SoundAtHand ∧ ¬ recordOfLazy.Sound ∧ format recordOfLazy = .error ⟨typeText recordOfLazy⟩ ∧
      ¬ ∃ s u, parse s = .ok u ∧ u.equal recordOfLazy = true := by
  have hat : recordOfLazy.SoundAtHand := by
    refine .intro (by decide) (List.forall_mem_singleton.2 ?_)
    exact .intro (by decide) (List.forall_mem_nil _)
  have hformat : format recordOfLazy = .error ⟨typeText recordOfLazy⟩ := if_pos (by decide +kernel)
  exact ⟨hat, by decide +kernel, hformat, (format_eq_error_iff hat).2.1 hformat⟩

end Spec

end FormulaTypes
