import FormulaTypes.Number.Binary

/-!
# Decimal numbers

A decimal is a number of units of a power of ten. A numeral is a decimal as it is written out, with as many figures as
the writer liked. Its magnitude in a binary format is decided by few of them:

- the first 19 figures settle it wherever the later ones cannot change the outcome;
- otherwise the first 800 do. A later figure then counts only as a trace of more, since no finite magnitude and no
  middle between two has so many figures itself. A point that stands further back is taken to stand right after the
  last of the 800.
-/

namespace FormulaTypes.Number

-- Powers are those of the core library, whatever else is imported.
attribute [local instance (2000)] instPowNat

/-- A decimal: `digits * 10 ^ exponent`. -/
structure Decimal where
  digits : Nat
  exponent : Int

/-- A decimal as a fraction. -/
def Decimal.fraction (d : Decimal) : Nat × Nat :=
  if 0 ≤ d.exponent then (d.digits * 10 ^ d.exponent.toNat, 1) else (d.digits, 10 ^ (-d.exponent).toNat)

/-- The magnitude nearest to a decimal. -/
def Decimal.round (b : Binary) (d : Decimal) : Nat := b.round d.fraction.1 d.fraction.2

/-- A decimal as it is written out: figures `f₁f₂…`, the first of them not zero, with the value
`0.f₁f₂… * 10 ^ (point + exponent)`. -/
structure Numeral where
  /-- The figures, read as one number. -/
  digits : Nat
  /-- How many figures there are. -/
  figures : Nat
  /-- How many of them stand before the point; below zero, how many zeros stand between the point and the first. -/
  point : Int
  /-- The power of ten written after the figures. -/
  exponent : Int

namespace Numeral

/-- How many of the first `count` figures there are. -/
def kept (n : Numeral) (count : Nat) : Nat := min n.figures count

/-- The first `count` figures, read as one number. -/
def leading (n : Numeral) (count : Nat) : Nat := n.digits / 10 ^ (n.figures - count)

/-- A figure after the first `count` is not zero. -/
def hasMore (n : Numeral) (count : Nat) : Bool := n.digits % 10 ^ (n.figures - count) ≠ 0

/-- How many figures are looked at first. -/
def glance : Nat := 19

/-- How many figures are looked at in the end. -/
def limit : Nat := 800

/-- The magnitude by the first 19 figures, if the later ones cannot change it. All that is past the last finite
magnitude counts as one. -/
def magnitudeAtGlance? (b : Binary) (n : Numeral) : Option Nat :=
  let exponent := n.point + n.exponent - n.kept glance
  let low := Decimal.round b ⟨n.leading glance, exponent⟩
  let high := if n.hasMore glance then Decimal.round b ⟨n.leading glance + 1, exponent⟩ else low
  if min low b.infinity = min high b.infinity then some low else none

/-- The first 800 figures as a decimal, with one more figure that tells whether others follow. -/
def abridged (n : Numeral) : Decimal :=
  ⟨10 * n.leading limit + (if n.hasMore limit then 1 else 0), min n.point limit + n.exponent - (n.kept limit + 1)⟩

/-- The magnitude that a numeral stands for. -/
def magnitude (b : Binary) (n : Numeral) : Nat :=
  match n.magnitudeAtGlance? b with
  | some word => word
  | none => n.abridged.round b

/-! ## Short numerals -/

/-- All figures are looked at if there are no more than asked for. -/
theorem leading_of_figures_le {n : Numeral} {count : Nat} (h : n.figures ≤ count) : n.leading count = n.digits := by
  simp [leading, Nat.sub_eq_zero_of_le h]

/-- No figure is left out if there are no more than asked for. -/
theorem hasMore_of_figures_le {n : Numeral} {count : Nat} (h : n.figures ≤ count) : n.hasMore count = false := by
  simp [hasMore, Nat.sub_eq_zero_of_le h, Nat.mod_one]

/-- A numeral of at most 19 figures is rounded as it stands. -/
theorem magnitude_of_figures_le (b : Binary) {n : Numeral} (h : n.figures ≤ glance) :
    n.magnitude b = Decimal.round b ⟨n.digits, n.point + n.exponent - n.figures⟩ := by
  have hk : n.kept glance = n.figures := Nat.min_eq_left h
  unfold magnitude magnitudeAtGlance?
  rw [leading_of_figures_le h, hasMore_of_figures_le h, hk]
  simp

end Numeral

end FormulaTypes.Number
