import FormulaTypes.Number.Shortest
import FormulaTypes.Proofs.Number.Rounding

/-!
# Seventeen digits suffice

The decimal of 17 digits that is nearest to a double is rounded to this double (`round_nearest`): the two differ by at
most one part in `2 * 10 ^ 16`, and there are fewer than `10 ^ 16` doubles from one power of two to the next. So the
search for the shortest decimal succeeds, and what it finds reads back, has at most 17 digits and an exponent of
moderate size (`shortest_spec`).
-/

namespace FormulaTypes.Number

-- Powers are those of the core library, whatever else is imported.
attribute [local instance (2000)] instPowNat

/-! ## The leading digit -/

theorem length_decimalDigits_pos (n : Nat) : 0 < (decimalDigits n).length := by
  simpa [decimalDigits] using Nat.length_toDigits_pos

/-- A number has `k` digits or fewer when it is below `10 ^ k`. -/
theorem length_decimalDigits_le_iff {n k : Nat} (hk : 0 < k) : (decimalDigits n).length ≤ k ↔ n < 10 ^ k := by
  simpa [decimalDigits] using Nat.length_toDigits_le_iff (by decide) hk

theorem lt_pow_length_decimalDigits (n : Nat) : n < 10 ^ (decimalDigits n).length :=
  (length_decimalDigits_le_iff (length_decimalDigits_pos n)).1 (Nat.le_refl _)

theorem pow_length_decimalDigits_le {n : Nat} (hn : 0 < n) : 10 ^ ((decimalDigits n).length - 1) ≤ n := by
  rcases Nat.lt_or_ge 1 (decimalDigits n).length with h | h
  · refine Nat.le_of_not_lt fun hlt => ?_
    have := (length_decimalDigits_le_iff (Nat.sub_pos_of_lt h)).2 hlt
    omega
  · rw [Nat.sub_eq_zero_of_le h]
    exact hn

/-- A comparison of fractions times powers of ten depends on the difference of the exponents alone. -/
theorem cross_pow_le {num den a b : Nat} (c d : Nat) (h : a + d = c + b) (hle : den * 10 ^ c ≤ num * 10 ^ d) :
    den * 10 ^ a ≤ num * 10 ^ b := by
  refine Nat.le_of_mul_le_mul_right (c := 10 ^ d) ?_ (Nat.pow_pos (by decide))
  calc den * 10 ^ a * 10 ^ d = den * 10 ^ c * 10 ^ b := by
        rw [Nat.mul_assoc, ← Nat.pow_add, h, Nat.pow_add, Nat.mul_assoc]
    _ ≤ num * 10 ^ d * 10 ^ b := Nat.mul_le_mul_right _ hle
    _ = num * 10 ^ b * 10 ^ d := Nat.mul_right_comm _ _ _

theorem cross_pow_lt {num den a b : Nat} (c d : Nat) (h : a + d = c + b) (hlt : num * 10 ^ d < den * 10 ^ c) :
    num * 10 ^ b < den * 10 ^ a :=
  Nat.lt_of_not_le fun hle => Nat.not_le.2 hlt (cross_pow_le a b (by omega) hle)

variable {num den : Nat}

/-- A fraction reaches the power of its leading digit. -/
theorem leadingExponent_le (hnum : 0 < num) (hden : 0 < den) {a b : Nat} (h : (a : Int) - b = leadingExponent num den) :
    den * 10 ^ a ≤ num * 10 ^ b := by
  unfold leadingExponent at h
  split at h
  · next hle =>
    have hpos := length_decimalDigits_pos (num / den)
    have hpow := pow_length_decimalDigits_le (Nat.div_pos hle hden)
    refine cross_pow_le ((decimalDigits (num / den)).length - 1) 0 (by omega) ?_
    rw [Nat.pow_zero, Nat.mul_one, Nat.mul_comm]
    exact (Nat.le_div_iff_mul_le hden).1 hpow
  · have hpos := length_decimalDigits_pos (den / num)
    dsimp only at h
    split at h
    · next hexact =>
      refine cross_pow_le 0 ((decimalDigits (den / num)).length - 1) (by omega) ?_
      rwa [Nat.pow_zero, Nat.mul_one]
    · have hpow := (Nat.div_lt_iff_lt_mul hnum).1 (lt_pow_length_decimalDigits (den / num))
      refine cross_pow_le 0 (decimalDigits (den / num)).length (by omega) ?_
      rw [Nat.mul_comm num]
      omega

/-- A fraction does not reach the next power. -/
theorem lt_leadingExponent (hnum : 0 < num) (hden : 0 < den) {a b : Nat}
    (h : (a : Int) - b = leadingExponent num den + 1) : num * 10 ^ b < den * 10 ^ a := by
  unfold leadingExponent at h
  split at h
  · have hpow := lt_pow_length_decimalDigits (num / den)
    refine cross_pow_lt (decimalDigits (num / den)).length 0 (by omega) ?_
    rw [Nat.pow_zero, Nat.mul_one, Nat.mul_comm]
    exact (Nat.div_lt_iff_lt_mul hden).1 hpow
  · next hlt =>
    have hpos := length_decimalDigits_pos (den / num)
    have hpow := pow_length_decimalDigits_le (Nat.div_pos (Nat.le_of_not_le hlt) hnum)
    have hle := (Nat.le_div_iff_mul_le hnum).1 hpow
    rw [Nat.mul_comm] at hle
    dsimp only at h
    split at h
    · refine cross_pow_lt 1 ((decimalDigits (den / num)).length - 1) (by omega) ?_
      omega
    · refine cross_pow_lt 0 ((decimalDigits (den / num)).length - 1) (by omega) ?_
      omega

/-- The leading exponent is no larger than the fraction allows. -/
theorem leadingExponent_bounds (hnum : 0 < num) (hden : 0 < den) {k : Nat} (low : den ≤ num * 10 ^ k)
    (high : num < den * 10 ^ k) : -(k : Int) ≤ leadingExponent num den ∧ leadingExponent num den < k := by
  have hpow : ∀ {i j : Nat} (n : Nat), i ≤ j → n * 10 ^ i ≤ n * 10 ^ j := fun n h =>
    Nat.mul_le_mul_left n (Nat.pow_le_pow_right (by decide) h)
  constructor
  · refine Int.not_lt.1 fun h => ?_
    have := lt_leadingExponent (a := 0) (b := (-(leadingExponent num den + 1)).toNat) hnum hden (by omega)
    have := hpow num (show k ≤ (-(leadingExponent num den + 1)).toNat by omega)
    omega
  · refine Int.not_le.1 fun h => ?_
    have := leadingExponent_le (a := (leadingExponent num den).toNat) (b := 0) hnum hden (by omega)
    have := hpow den (show k ≤ (leadingExponent num den).toNat by omega)
    omega

/-! ## Neighbours -/

/-- The power of ten that leaves a fraction with `count` digits before the point. -/
def unitExponent (num den count : Nat) : Int := leadingExponent num den - (count - 1)

/-- A fraction over `10 ^ unitExponent`: what stands above. -/
def overUnit (num den count : Nat) : Nat := num * 10 ^ (-unitExponent num den count).toNat

/-- A fraction over `10 ^ unitExponent`: what stands below. -/
def underUnit (num den count : Nat) : Nat := den * 10 ^ (unitExponent num den count).toNat

theorem underUnit_pos (num count : Nat) (hden : 0 < den) : 0 < underUnit num den count :=
  Nat.mul_pos hden (Nat.pow_pos (by decide))

theorem underUnit_le_overUnit (hnum : 0 < num) (hden : 0 < den) (count : Nat) :
    underUnit num den (count + 1) * 10 ^ count ≤ overUnit num den (count + 1) := by
  unfold underUnit overUnit
  rw [Nat.mul_assoc, ← Nat.pow_add]
  refine leadingExponent_le hnum hden ?_
  simp only [unitExponent]
  omega

theorem overUnit_lt_underUnit (hnum : 0 < num) (hden : 0 < den) (count : Nat) :
    overUnit num den (count + 1) < underUnit num den (count + 1) * 10 ^ (count + 1) := by
  unfold underUnit overUnit
  rw [Nat.mul_assoc, ← Nat.pow_add]
  refine lt_leadingExponent hnum hden ?_
  simp only [unitExponent]
  omega

theorem neighbours_eq (num den count : Nat) :
    neighbours num den count =
      let n := overUnit num den count
      let d := underUnit num den count
      let e := unitExponent num den count
      if n % d = 0 then [⟨n / d, e⟩]
      else if roundDiv n d = n / d then [⟨n / d, e⟩, ⟨n / d + 1, e⟩]
      else [⟨n / d + 1, e⟩, ⟨n / d, e⟩] := by
  have hn : overUnit num den count =
      if unitExponent num den count < 0 then num * 10 ^ (-unitExponent num den count).toNat else num := by
    unfold overUnit
    split
    · rfl
    · rw [show (-unitExponent num den count).toNat = 0 by omega, Nat.pow_zero, Nat.mul_one]
  have hd : underUnit num den count =
      if unitExponent num den count < 0 then den else den * 10 ^ (unitExponent num den count).toNat := by
    unfold underUnit
    split
    · rw [show (unitExponent num den count).toNat = 0 by omega, Nat.pow_zero, Nat.mul_one]
    · rfl
  rw [hn, hd]
  rfl

/-- The neighbours have `count` digits, but for the power of ten after all of these. -/
theorem of_mem_neighbours (hnum : 0 < num) (hden : 0 < den) {count : Nat} {d : Decimal}
    (h : d ∈ neighbours num den (count + 1)) :
    d.digits ≤ 10 ^ (count + 1) ∧ d.exponent = leadingExponent num den - count := by
  have hlt : overUnit num den (count + 1) / underUnit num den (count + 1) < 10 ^ (count + 1) := by
    rw [Nat.div_lt_iff_lt_mul (underUnit_pos _ _ hden), Nat.mul_comm]
    exact overUnit_lt_underUnit hnum hden count
  have he : unitExponent num den (count + 1) = leadingExponent num den - count := by
    simp only [unitExponent]
    omega
  rw [neighbours_eq, he] at h
  dsimp only at h
  split at h
  · rw [List.mem_singleton.1 h]
    exact ⟨Nat.le_of_lt hlt, rfl⟩
  · split at h <;> simp only [List.mem_cons, List.not_mem_nil, or_false] at h <;> rcases h with rfl | rfl <;>
      exact ⟨by simp only; omega, rfl⟩

/-- The nearest number is among the neighbours. -/
theorem nearest_mem_neighbours (num count : Nat) (hden : 0 < den) :
    ⟨roundDiv (overUnit num den count) (underUnit num den count), unitExponent num den count⟩ ∈
      neighbours num den count := by
  have hpos := underUnit_pos num count hden
  rw [neighbours_eq]
  generalize overUnit num den count = n
  generalize underUnit num den count = d at *
  dsimp only
  split
  · next h =>
    have : roundDiv n d = n / d := by
      unfold roundDiv
      simp only [h]
      rw [if_pos hpos]
    simp [this]
  · split
    · next h => simp [h]
    · next h =>
      have : roundDiv n d = n / d + 1 := by
        unfold roundDiv at *
        grind
      simp [this]

/-! ## The search -/

/-- The decimal of 17 digits nearest to a fraction. -/
def nearest (num den : Nat) : Decimal :=
  ⟨roundDiv (overUnit num den 17) (underUnit num den 17), unitExponent num den 17⟩

variable {word : Nat}

/-- **Seventeen digits suffice**, in every format with at most 53 binary digits. -/
theorem round_nearest {b : Binary} (hb : 2 ^ (b.fraction + 1) < 10 ^ (16 : Nat)) (hw : 0 < word) :
    (nearest (b.units word) (2 ^ b.scale)).round b = word := by
  obtain ⟨digits, shift, hunits, hword, hd, hs⟩ := b.exists_digits word
  have hscale : 0 < 2 ^ b.scale := Nat.two_pow_pos _
  have hle := underUnit_le_overUnit (b.units_pos hw) hscale 16
  obtain ⟨low, high⟩ := roundDiv_near (overUnit (b.units word) (2 ^ b.scale) 17) (underUnit_pos _ 17 hscale)
  unfold nearest
  generalize roundDiv (overUnit (b.units word) (2 ^ b.scale) 17) (underUnit (b.units word) (2 ^ b.scale) 17) = n at *
  unfold overUnit underUnit at *
  generalize unitExponent (b.units word) (2 ^ b.scale) 17 = e at *
  have hover : digits * (10 ^ (-e).toNat * 2 ^ shift) = b.units word * 10 ^ (-e).toNat := by
    rw [hunits]
    ac_rfl
  have hunder : n * 10 ^ e.toNat * 2 ^ b.scale = n * (2 ^ b.scale * 10 ^ e.toNat) := by ac_rfl
  rw [Decimal.round_over b _ (-e).toNat e.toNat (by simp only; omega), hword]
  refine Binary.round_of_near (k := 10 ^ 16) (Nat.pow_pos (by decide)) hd hs hb ?_ ?_
  · rw [hover, hunder]
    omega
  · rw [hover, hunder]
    omega

/-- The leading exponent of a magnitude is of the size of its binary exponents. -/
theorem leadingExponent_units (b : Binary) (hw : 0 < word) {k : Nat} (hscale : b.scale ≤ k)
    (hsize : b.fraction + 1 + word / 2 ^ b.fraction ≤ b.scale + k) :
    -(k : Int) ≤ leadingExponent (b.units word) (2 ^ b.scale) ∧ leadingExponent (b.units word) (2 ^ b.scale) < k := by
  have hpos := b.units_pos hw
  obtain ⟨digits, shift, hunits, hword, hd, -⟩ := b.exists_digits word
  have hshift : shift ≤ word / 2 ^ b.fraction := (Nat.le_div_iff_mul_le (Nat.two_pow_pos _)).2 (by omega)
  have hten : ∀ e, 2 ^ e ≤ 10 ^ e := fun e => Nat.pow_le_pow_left (by decide) e
  refine leadingExponent_bounds hpos (Nat.two_pow_pos _) ?_ ?_
  · calc 2 ^ b.scale ≤ 2 ^ k := Nat.pow_le_pow_right (by decide) hscale
      _ ≤ 10 ^ k := hten k
      _ ≤ b.units word * 10 ^ k := Nat.le_mul_of_pos_left _ hpos
  · calc b.units word = digits * 2 ^ shift := hunits
      _ < 2 ^ (b.fraction + 1) * 2 ^ shift := Nat.mul_lt_mul_of_pos_right hd (Nat.two_pow_pos _)
      _ = 2 ^ (b.fraction + 1 + shift) := (Nat.pow_add _ _ _).symm
      _ ≤ 2 ^ (b.scale + k) := Nat.pow_le_pow_right (by decide) (by omega)
      _ = 2 ^ b.scale * 2 ^ k := Nat.pow_add _ _ _
      _ ≤ 2 ^ b.scale * 10 ^ k := Nat.mul_le_mul_left _ (hten k)

/-- The nearest decimal of 17 digits is a candidate for the shortest one. So the search finds one that reads back, and
what stands for a search without finding is never used. -/
theorem shortest_spec (hw : 0 < word) (hf : word < Binary.double.infinity) :
    (shortest word).round .double = word ∧ (shortest word).digits ≤ 10 ^ (17 : Nat) ∧
      (shortest word).exponent.natAbs ≤ 1200 := by
  have hscale : 0 < 2 ^ Binary.double.scale := Nat.two_pow_pos _
  have hpos := Binary.double.units_pos hw
  unfold shortest
  dsimp only
  cases hfind : ((List.range 17).flatMap fun i =>
      neighbours (Binary.double.units word) (2 ^ Binary.double.scale) (i + 1)).find? (readsBack word) with
  | none =>
    have hnone := List.find?_eq_none.1 hfind (nearest (Binary.double.units word) (2 ^ Binary.double.scale))
      (List.mem_flatMap.2 ⟨16, by decide, nearest_mem_neighbours _ 17 hscale⟩)
    exact absurd (decide_eq_true (round_nearest (by decide) hw)) hnone
  | some d =>
    obtain ⟨i, hi, hm⟩ := List.mem_flatMap.1 (List.mem_of_find?_eq_some hfind)
    have hlt : i < 17 := List.mem_range.1 hi
    obtain ⟨hdigits, hexponent⟩ := of_mem_neighbours hpos hscale hm
    have hsize : word / 2 ^ 52 ≤ 2047 :=
      Nat.le_of_lt_succ ((Nat.div_lt_iff_lt_mul (by decide)).2 (Nat.lt_trans hf (by decide)))
    have hbounds := leadingExponent_units .double hw (k := 1100) (by decide)
      (Nat.le_trans (Nat.add_le_add_left hsize 53) (by decide))
    have hback : readsBack word d = true := List.find?_some hfind
    rw [Option.getD_some]
    refine ⟨of_decide_eq_true hback, ?_, ?_⟩
    · exact Nat.le_trans hdigits (Nat.pow_le_pow_right (by decide) hlt)
    · generalize leadingExponent (Binary.double.units word) (2 ^ Binary.double.scale) = x at *
      rw [hexponent]
      omega

end FormulaTypes.Number
