import FormulaTypes.Number.Decimal

/-!
# Rounding to a binary format

- A rounded quotient is off by at most one half (`roundDiv_near`), and it is the only number that is off by less
  (`roundDiv_of_near`).
- A fraction within one part in `2 * k` of a magnitude is rounded to this magnitude (`Binary.round_of_near`), as long
  as there are fewer than `k` magnitudes from one power of two to the next.
- Rounding depends on the value of a fraction alone (`Binary.round_scale`), so zeros move freely between the digits and
  the exponent of a decimal (`Decimal.round_shift`).
-/

namespace FormulaTypes.Number

-- Powers are those of the core library, whatever else is imported.
attribute [local instance (2000)] instPowNat

/-! ## Quotients -/

/-- A rounded quotient is off by at most one half. -/
theorem roundDiv_near (num : Nat) {den : Nat} (hden : 0 < den) :
    2 * num ≤ 2 * (roundDiv num den * den) + den ∧ 2 * (roundDiv num den * den) ≤ 2 * num + den := by
  have hmod : num % den < den := Nat.mod_lt num hden
  have hdiv : den * (num / den) + num % den = num := Nat.div_add_mod num den
  have hsucc : (num / den + 1) * den = num / den * den + den := Nat.succ_mul _ _
  rw [Nat.mul_comm] at hdiv
  unfold roundDiv
  dsimp only
  split
  · omega
  · split
    · omega
    · split <;> omega

/-- Nearer than one half there is no more than one number. -/
theorem roundDiv_of_near {num den q : Nat} (low : 2 * (q * den) < 2 * num + den)
    (high : 2 * num < 2 * (q * den) + den) : roundDiv num den = q := by
  have hden : 0 < den := by omega
  obtain ⟨near₁, near₂⟩ := roundDiv_near num hden
  rcases Nat.lt_trichotomy (roundDiv num den) q with h | h | h
  · have := Nat.mul_le_mul_right den (Nat.succ_le_of_lt h)
    rw [Nat.succ_mul] at this
    omega
  · exact h
  · have := Nat.mul_le_mul_right den (Nat.succ_le_of_lt h)
    rw [Nat.succ_mul] at this
    omega

/-- A common factor does not change a rounded quotient. -/
theorem roundDiv_scale {k : Nat} (hk : 0 < k) (num den : Nat) : roundDiv (k * num) (k * den) = roundDiv num den := by
  have h₁ : 2 * (k * (num % den)) < k * den ↔ 2 * (num % den) < den := by
    rw [Nat.mul_left_comm]
    exact Nat.mul_lt_mul_left hk
  have h₂ : k * den < 2 * (k * (num % den)) ↔ den < 2 * (num % den) := by
    rw [Nat.mul_left_comm]
    exact Nat.mul_lt_mul_left hk
  unfold roundDiv
  simp only [Nat.mul_div_mul_left _ _ hk, Nat.mul_mod_mul_left, h₁, h₂]

namespace Binary

/-! ## Magnitudes -/

/-- The digits and the exponent of a magnitude: either the exponent is the lowest one, or the leading digit is one. -/
theorem exists_digits (b : Binary) (word : Nat) :
    ∃ digits shift, b.units word = digits * 2 ^ shift ∧ word = shift * 2 ^ b.fraction + digits ∧
      digits < 2 ^ (b.fraction + 1) ∧ (shift = 0 ∨ 2 ^ b.fraction ≤ digits) := by
  have hf : word % 2 ^ b.fraction < 2 ^ b.fraction := Nat.mod_lt _ (Nat.two_pow_pos _)
  have hw : 2 ^ b.fraction * (word / 2 ^ b.fraction) + word % 2 ^ b.fraction = word := Nat.div_add_mod _ _
  have hp : 2 ^ (b.fraction + 1) = 2 * 2 ^ b.fraction := by rw [Nat.pow_succ, Nat.mul_comm]
  cases he : word / 2 ^ b.fraction with
  | zero =>
    rw [he] at hw
    refine ⟨word % 2 ^ b.fraction, 0, ?_, by omega, by omega, .inl rfl⟩
    simp [units, he]
  | succ e =>
    rw [he, Nat.mul_succ, Nat.mul_comm] at hw
    refine ⟨word % 2 ^ b.fraction + 2 ^ b.fraction, e, ?_, by omega, by omega, .inr (by omega)⟩
    simp [units, he]

/-- Only zero is worth nothing. -/
theorem units_pos (b : Binary) {word : Nat} (hw : 0 < word) : 0 < b.units word := by
  obtain ⟨digits, shift, hunits, hword, -, hs⟩ := b.exists_digits word
  rw [hunits]
  refine Nat.mul_pos ?_ (Nat.two_pow_pos _)
  rcases hs with rfl | hs
  · omega
  · exact Nat.lt_of_lt_of_le (Nat.two_pow_pos _) hs

/-- A common factor does not change the nearest magnitude. -/
theorem round_scale (b : Binary) {k : Nat} (hk : 0 < k) (num den : Nat) :
    b.round (k * num) (k * den) = b.round num den := by
  unfold round
  simp only [Nat.mul_assoc, Nat.mul_div_mul_left _ _ hk, roundDiv_scale hk]

/-! ## Fractions close to a magnitude -/

theorem log2_div_le {num den k : Nat} (hden : 0 < den) (high : num < 2 ^ (k + 1) * den) : (num / den).log2 ≤ k := by
  have hlt : num / den < 2 ^ (k + 1) := (Nat.div_lt_iff_lt_mul hden).2 high
  rcases Nat.eq_zero_or_pos (num / den) with h | h
  · rw [h]
    exact Nat.zero_le _
  · exact Nat.lt_succ_iff.1 ((Nat.log2_lt (by omega)).2 hlt)

theorem log2_div_eq {num den k : Nat} (hden : 0 < den) (low : 2 ^ k * den ≤ num) (high : num < 2 ^ (k + 1) * den) :
    (num / den).log2 = k := by
  have hle : 2 ^ k ≤ num / den := (Nat.le_div_iff_mul_le hden).2 low
  have hpos : num / den ≠ 0 := by
    have := Nat.two_pow_pos k
    omega
  exact Nat.le_antisymm (log2_div_le hden high) ((Nat.le_log2 hpos).2 hle)

/-- What is off by one part in `2 * k` of less than `k` units is off by less than half a unit. -/
theorem near_of_part {s t unit k : Nat} (low : 2 * k * t ≤ 2 * k * s + t) (high : 2 * k * s ≤ 2 * k * t + t)
    (size : t < k * unit) : 2 * t < 2 * s + unit ∧ 2 * s < 2 * t + unit := by
  constructor
  · refine Nat.lt_of_mul_lt_mul_left (a := k) ?_
    rw [Nat.mul_add, ← Nat.mul_assoc, ← Nat.mul_assoc, Nat.mul_comm k 2]
    omega
  · refine Nat.lt_of_mul_lt_mul_left (a := k) ?_
    rw [Nat.mul_add, ← Nat.mul_assoc, ← Nat.mul_assoc, Nat.mul_comm k 2]
    omega

variable {b : Binary} {digits shift num den k : Nat}

/-- Rounding, once the number of dropped digits is known. -/
theorem round_of_dropped {q : Nat} (hdrop : (num * 2 ^ b.scale / den).log2 - b.fraction = shift)
    (near : 2 * (q * (den * 2 ^ shift)) < 2 * (num * 2 ^ b.scale) + den * 2 ^ shift ∧
      2 * (num * 2 ^ b.scale) < 2 * (q * (den * 2 ^ shift)) + den * 2 ^ shift) :
    b.round num den = shift * 2 ^ b.fraction + q := by
  unfold round
  simp only [hdrop, roundDiv_of_near near.1 near.2]

/-- A fraction within one part in `2 * k` of a magnitude is rounded to it, if magnitudes have digits below `k`. -/
theorem round_of_near (hden : 0 < den) (hd : digits < 2 ^ (b.fraction + 1)) (hs : shift = 0 ∨ 2 ^ b.fraction ≤ digits)
    (hk : 2 ^ (b.fraction + 1) < k)
    (low : 2 * k * (digits * (den * 2 ^ shift)) ≤ 2 * k * (num * 2 ^ b.scale) + digits * (den * 2 ^ shift))
    (high : 2 * k * (num * 2 ^ b.scale) ≤ 2 * k * (digits * (den * 2 ^ shift)) + digits * (den * 2 ^ shift)) :
    b.round num den = shift * 2 ^ b.fraction + digits := by
  have hunit : ∀ e, 0 < den * 2 ^ e := fun e => Nat.mul_pos hden (Nat.two_pow_pos _)
  have hp : 2 ^ (b.fraction + 1) = 2 * 2 ^ b.fraction := by rw [Nat.pow_succ, Nat.mul_comm]
  have hpow : ∀ e, 2 ^ (b.fraction + e) * den = 2 ^ b.fraction * (den * 2 ^ e) := by
    intro e
    rw [Nat.pow_add]
    ac_rfl
  have htwo : ∀ e, den * 2 ^ (e + 1) = 2 * (den * 2 ^ e) := by
    intro e
    rw [Nat.pow_succ]
    ac_rfl
  have near := near_of_part low high (Nat.mul_lt_mul_of_pos_right (Nat.lt_trans hd hk) (hunit shift))
  have hmax := Nat.mul_le_mul_right (den * 2 ^ shift) hd
  rw [hp, Nat.succ_mul, Nat.mul_assoc] at hmax
  by_cases hlow : shift = 0 ∨ 2 ^ b.fraction * (den * 2 ^ shift) ≤ num * 2 ^ b.scale
  · refine round_of_dropped ?_ near
    have hhigh : num * 2 ^ b.scale < 2 ^ (b.fraction + shift + 1) * den := by
      rw [Nat.add_assoc, hpow, htwo, Nat.mul_left_comm]
      omega
    rcases hlow with rfl | hlow
    · have := log2_div_le hden hhigh
      omega
    · rw [log2_div_eq hden (by rwa [hpow]) hhigh, Nat.add_sub_cancel_left]
  · -- the magnitude is a power of two and the fraction is below it, where neighbours are twice as close
    obtain ⟨hshift, hlow⟩ := not_or.1 hlow
    obtain ⟨e, rfl⟩ : ∃ e, shift = e + 1 := ⟨shift - 1, by omega⟩
    have heq : digits = 2 ^ b.fraction := by
      refine Nat.le_antisymm ?_ (hs.resolve_left hshift)
      refine Nat.le_of_lt_succ (Nat.lt_of_mul_lt_mul_right (a := den * 2 ^ (e + 1)) ?_)
      rw [Nat.succ_mul]
      omega
    have hdouble : 2 ^ (b.fraction + 1) * (den * 2 ^ e) = digits * (den * 2 ^ (e + 1)) := by
      rw [heq, htwo, hp]
      ac_rfl
    have hsize : digits * (den * 2 ^ (e + 1)) < k * (den * 2 ^ e) := by
      rw [← hdouble]
      exact Nat.mul_lt_mul_of_pos_right hk (hunit e)
    have hclose := near_of_part low high hsize
    rw [← hdouble] at hclose
    have hdrop : (num * 2 ^ b.scale / den).log2 = b.fraction + e := by
      have hone : den * 2 ^ e ≤ 2 ^ b.fraction * (den * 2 ^ e) := Nat.le_mul_of_pos_left _ (Nat.two_pow_pos _)
      rw [hp, Nat.mul_assoc] at hclose
      refine log2_div_eq hden ?_ ?_
      · rw [hpow]
        omega
      · rw [Nat.add_assoc, hpow]
        omega
    rw [round_of_dropped (by rw [hdrop, Nat.add_sub_cancel_left]) hclose, heq, hp, Nat.add_mul]
    omega

end Binary

/-! ## Decimals -/

/-- Zero rounds to zero. -/
theorem Decimal.round_zero (b : Binary) (e : Int) : Decimal.round b ⟨0, e⟩ = 0 := by
  have hzero : ∀ den, b.round 0 den = 0 := by
    intro den
    simp [Binary.round, roundDiv]
  unfold Decimal.round Decimal.fraction
  split
  · rw [Nat.zero_mul]
    exact hzero 1
  · exact hzero _

/-- A decimal over a power of ten that takes up its exponent. -/
theorem Decimal.round_over (b : Binary) (d : Decimal) (places power : Nat) (h : d.exponent + places = power) :
    d.round b = b.round (d.digits * 10 ^ power) (10 ^ places) := by
  unfold Decimal.round Decimal.fraction
  split
  · next he =>
    have hpow : power = places + d.exponent.toNat := by omega
    rw [hpow, Nat.pow_add, Nat.mul_left_comm, ← Binary.round_scale b (Nat.pow_pos (Nat.succ_pos 9) : 0 < 10 ^ places),
      Nat.mul_one]
  · next he =>
    have hplaces : places = power + (-d.exponent).toNat := by omega
    rw [hplaces, Nat.pow_add, Nat.mul_comm, Binary.round_scale b (Nat.pow_pos (Nat.succ_pos 9))]

/-- Zeros at the end of the digits may go to the exponent. -/
theorem Decimal.round_shift (b : Binary) (digits zeros : Nat) (e : Int) :
    Decimal.round b ⟨digits * 10 ^ zeros, e⟩ = Decimal.round b ⟨digits, e + zeros⟩ := by
  have h₁ : e + e.natAbs = ((e + e.natAbs).toNat : Int) := by omega
  have h₂ : e + zeros + e.natAbs = ((zeros + (e + e.natAbs).toNat : Nat) : Int) := by omega
  rw [Decimal.round_over b _ _ _ h₁, Decimal.round_over b _ _ _ h₂, Nat.pow_add, Nat.mul_assoc]

end FormulaTypes.Number
