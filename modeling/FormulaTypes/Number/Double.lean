import FormulaTypes.Number.Binary

/-!
# Double precision numbers

A double is its word of 64 bits: a sign, and a magnitude of `Binary.double`. As literals all NaNs are one number, and
so are the two zeros (`Double.canonical`).
-/

namespace FormulaTypes.Number

-- Powers are those of the core library, whatever else is imported.
attribute [local instance (2000)] instPowNat

/-- A double precision number. -/
structure Double where
  /-- Sign, exponent and fraction. -/
  bits : UInt64
  deriving DecidableEq

namespace Double

/-- The sign bit. -/
def isNegative (d : Double) : Bool := 0x8000000000000000 ≤ d.bits.toNat

/-- The word without its sign. -/
def magnitude (d : Double) : Nat := d.bits.toNat % 0x8000000000000000

/-- Not a number. -/
def isNaN (d : Double) : Bool := Binary.double.infinity < d.magnitude

/-- Either infinity. -/
def isInfinite (d : Double) : Bool := d.magnitude = Binary.double.infinity

/-- Either zero. -/
def isZero (d : Double) : Bool := d.magnitude = 0

/-- The number with a sign and a magnitude. -/
def ofMagnitude (negative : Bool) (word : Nat) : Double :=
  ⟨(word + if negative then 0x8000000000000000 else 0).toUInt64⟩

/-- The one NaN that stands for all. -/
def nan : Double := ofMagnitude false Binary.double.nan

/-- An infinity. -/
def infinity (negative : Bool) : Double := ofMagnitude negative Binary.double.infinity

/-- The number that stands for all literals equal to `d`. -/
def canonical (d : Double) : Double :=
  if d.isNaN then nan else if d.isZero then ⟨0⟩ else d

/-- Equality of numeric literals: NaN equals NaN, and the two zeros are equal. -/
def same (a b : Double) : Bool := a.canonical = b.canonical

/-- The double nearest to an integer. -/
def ofInt (i : Int) : Double := ofMagnitude (i < 0) (Binary.double.round i.natAbs 1)

/-- The double with the value of a single precision word. A NaN keeps its sign and its leading bits, and is quiet. -/
def ofSingle (word : UInt32) : Double :=
  let size := word.toNat % 0x80000000
  let negative := decide (0x80000000 ≤ word.toNat)
  if Binary.single.infinity < size then ofMagnitude negative (0x7FF8000000000000 + size % 0x400000 * 2 ^ (29 : Nat))
  else if size = Binary.single.infinity then infinity negative
  else ofMagnitude negative (Binary.double.round (Binary.single.units size) (2 ^ Binary.single.scale))

@[simp] theorem same_self (d : Double) : d.same d = true := by simp [same]

theorem same_symm (a b : Double) : a.same b = b.same a := by simp [same, eq_comm]

end Double

end FormulaTypes.Number
