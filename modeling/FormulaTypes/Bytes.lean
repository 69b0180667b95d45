/-!
# Byte strings

Names, source tokens and texts are byte strings. They are ordered byte by byte, a proper initial part first.
-/

namespace FormulaTypes

/-- A byte string. -/
abbrev Bytes := List UInt8

namespace Bytes

/-- The UTF-8 bytes of a text. -/
def ofString (s : String) : Bytes := s.toUTF8.data.toList

theorem ofString_append (s t : String) : ofString (s ++ t) = ofString s ++ ofString t := by
  simp [ofString, String.toUTF8]

/-- The strict byte-wise order. -/
def precedes : Bytes → Bytes → Bool
  | _, [] => false
  | [], _ :: _ => true
  | a :: s, b :: t => a.toNat < b.toNat || (a = b && precedes s t)

@[simp] theorem precedes_nil (s : Bytes) : precedes s [] = false := by
  cases s <;> rfl

@[simp] theorem nil_precedes_cons (b : UInt8) (t : Bytes) : precedes [] (b :: t) = true := rfl

theorem cons_precedes_cons (a b : UInt8) (s t : Bytes) :
    precedes (a :: s) (b :: t) = true ↔ a.toNat < b.toNat ∨ (a = b ∧ precedes s t = true) := by
  simp [precedes]

/-- Nothing stands before itself. -/
@[simp] theorem precedes_self (s : Bytes) : precedes s s = false := by
  induction s with
  | nil => rfl
  | cons a s ih => simp [precedes, ih]

/-- The order is transitive. -/
theorem precedes_trans : ∀ {s t u : Bytes}, precedes s t = true → precedes t u = true → precedes s u = true
  | _, _, [], _, h => by simp at h
  | _, [], _ :: _, h, _ => by simp at h
  | [], _ :: _, _ :: _, _, _ => rfl
  | a :: s, b :: t, c :: u, h, k => by
    rw [cons_precedes_cons] at *
    rcases h with h | ⟨rfl, h⟩ <;> rcases k with k | ⟨rfl, k⟩
    · exact .inl (Nat.lt_trans h k)
    · exact .inl h
    · exact .inl k
    · exact .inr ⟨rfl, precedes_trans h k⟩

/-- Of two different byte strings one stands before the other. -/
theorem precedes_of_ne : ∀ {s t : Bytes}, s ≠ t → precedes s t = false → precedes t s = true
  | [], [], h, _ => absurd rfl h
  | [], _ :: _, _, k => by simp at k
  | _ :: _, [], _, _ => rfl
  | a :: s, b :: t, h, k => by
    rw [cons_precedes_cons]
    have k' : ¬ (a.toNat < b.toNat ∨ (a = b ∧ precedes s t = true)) := by
      rw [← cons_precedes_cons, k]; simp
    by_cases hab : a = b
    · subst hab
      refine .inr ⟨rfl, precedes_of_ne (fun e => h (by rw [e])) ?_⟩
      cases hs : precedes s t with
      | false => rfl
      | true => exact absurd (.inr ⟨rfl, hs⟩) k'
    · refine .inl ?_
      have : a.toNat ≠ b.toNat := fun e => hab (UInt8.toNat_inj.mp e)
      omega

end Bytes

end FormulaTypes
