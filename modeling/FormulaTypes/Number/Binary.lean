import FormulaTypes.Bytes

/-!
# Binary floating point numbers

A magnitude of a binary format is a natural number: the word that holds exponent and fraction. The finite magnitudes
are multiples of the smallest one, `2 ^ -scale`, and grow with the word. Rounding a fraction to the nearest magnitude
is one division, a half going to the even neighbour.
-/

namespace FormulaTypes.Number

-- Powers are those of the core library, whatever else is imported.
attribute [local instance (2000)] instPowNat

/-- The quotient rounded to the nearest natural number, a half to the even neighbour. -/
def roundDiv (num den : Nat) : Nat :=
  let q := num / den
  let r := num % den
  if 2 * r < den then q
  else if den < 2 * r then q + 1
  else if q % 2 = 0 then q else q + 1

/-- A binary floating point format. -/
structure Binary where
  /-- How many bits follow the leading one. -/
  fraction : Nat
  /-- The smallest positive magnitude is `2 ^ -scale`. -/
  scale : Nat
  /-- The word of infinity, above the words of all finite magnitudes. -/
  infinity : Nat
  /-- The word that a text names as not a number. -/
  nan : Nat

namespace Binary

/-- Double precision. -/
def double : Binary := ⟨52, 1074, 0x7FF0000000000000, 0x7FF8000000000001⟩

/-- Single precision. -/
def single : Binary := ⟨23, 149, 0x7F800000, 0x7FC00000⟩

/-- The value of a finite magnitude, in units of the smallest one. -/
def units (b : Binary) (word : Nat) : Nat :=
  let exponent := word / 2 ^ b.fraction
  let digits := word % 2 ^ b.fraction
  if exponent = 0 then digits else (digits + 2 ^ b.fraction) * 2 ^ (exponent - 1)

/-- The magnitude nearest to the fraction `num / den`; what is past the last finite one has a word of `infinity` or
more. -/
def round (b : Binary) (num den : Nat) : Nat :=
  let scaled := num * 2 ^ b.scale
  let dropped := (scaled / den).log2 - b.fraction
  dropped * 2 ^ b.fraction + roundDiv scaled (den * 2 ^ dropped)

end Binary

end FormulaTypes.Number
