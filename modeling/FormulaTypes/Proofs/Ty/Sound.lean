import FormulaTypes.Ty.Order
import FormulaTypes.Ty.Validity

/-!
# Sound types

A type is sound if everywhere in it the maps are in order and the node is valid.
-/

namespace FormulaTypes

namespace Ty

/-- Everywhere in the type the maps are in order and the node is valid. -/
def Sound (t : Ty) : Prop := t.Everywhere fun u => u.form.Ordered ∧ u.isValid = true

instance (t : Ty) : Decidable t.Sound := Everywhere.decidable t

namespace Sound

variable {t : Ty}

theorem inOrder (h : t.Sound) : t.InOrder := Everywhere.imp h fun _ hu => hu.1

theorem ordered (h : t.Sound) : t.form.Ordered := (Everywhere.here h).1

theorem valid (h : t.Sound) : t.isValid = true := (Everywhere.here h).2

theorem ordered_fields (h : t.Sound) : NameMap.Ordered t.fields := ordered_fields_of_form h.ordered

theorem part (h : t.Sound) {u : Ty} (hu : u ∈ t.parts) : u.Sound := Everywhere.part h hu

end Sound

/-! ## What validity asks for -/

/-- A valid type has a kind that types can have. -/
theorem kind_isValid {t : Ty} (h : t.isValid = true) : t.kind.isValid = true := by
  unfold isValid violation? at h
  split at h
  · cases h
  · next hk => simpa using hk

/-- The literals of a valid enum are of a plain kind. -/
theorem superkind_isPrimitive {t : Ty} (h : t.isValid = true) (hk : t.kind = .enum) :
    t.superkind.isPrimitive = true := by
  unfold isValid violation? at h
  split at h
  · cases h
  · split at h
    · cases h
    · next hs => simpa [hk] using hs

/-- A valid lazy type has a provider. -/
theorem exists_provider {t : Ty} (h : t.isValid = true) (hk : t.isLazy = true) : ∃ p, t.provider? = some p := by
  unfold isValid violation? at h
  split at h
  · cases h
  · split at h
    · cases h
    · split at h
      · cases h
      · next hp =>
        unfold isLazy at hk
        rw [hk, Bool.true_and, Option.isNone_iff_eq_none] at hp
        exact Option.ne_none_iff_exists'.1 hp

/-- A valid type that stands for nothing of the host has no token. -/
theorem token_eq_none {t : Ty} (h : t.isValid = true) (ho : t.kind.isOpaque = false) (ha : t.kind.isAggregate = false) :
    t.token = none := by
  unfold isValid violation? at h
  split at h
  · cases h
  · split at h
    · cases h
    · split at h
      · cases h
      · split at h
        · cases h
        · next ht => simpa [ho, ha] using ht

end Ty

end FormulaTypes
