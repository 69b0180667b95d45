import FormulaTypes.Number.Reader

/-!
# Writing numbers

The text of a double has the fewest digits that read back as the same double, and among those the digits nearest to
its value, an exact tie going to the even digit. Exponents from -4 to 5 are written out, others after an `e`.
-/

namespace FormulaTypes.Number

-- Powers are those of the core library, whatever else is imported.
attribute [local instance (2000)] instPowNat

/-- The decimal digits of a number, most significant first. -/
def decimalDigits (n : Nat) : Bytes := (Nat.toDigits 10 n).map fun c => c.toNat.toUInt8

/-- The power of ten that a positive fraction reaches: the greatest `x` with `10 ^ x ≤ num / den`. -/
def leadingExponent (num den : Nat) : Int :=
  if den ≤ num then (decimalDigits (num / den)).length - 1
  else
    let size := (decimalDigits (den / num)).length
    if den ≤ num * 10 ^ (size - 1) then -((size : Int) - 1) else -(size : Int)

/-- The decimals of `count` digits on both sides of a positive fraction, the nearer one first. -/
def neighbours (num den : Nat) (count : Nat) : List Decimal :=
  let exponent := leadingExponent num den - (count - 1)
  let n := if exponent < 0 then num * 10 ^ (-exponent).toNat else num
  let d := if exponent < 0 then den else den * 10 ^ exponent.toNat
  let down : Decimal := ⟨n / d, exponent⟩
  let up : Decimal := ⟨n / d + 1, exponent⟩
  if n % d = 0 then [down]
  else if roundDiv n d = n / d then [down, up] else [up, down]

/-- The decimal reads back as the magnitude. -/
def readsBack (word : Nat) (d : Decimal) : Bool := d.round .double = word

/-- The magnitude written out in full. -/
def exactDecimal (word : Nat) : Decimal :=
  ⟨Binary.double.units word * 5 ^ Binary.double.scale, -(Binary.double.scale : Int)⟩

/-- The shortest decimal that reads back as a positive finite magnitude, the nearest of those. -/
def shortest (word : Nat) : Decimal :=
  let num := Binary.double.units word
  let den := 2 ^ Binary.double.scale
  let candidates := (List.range 17).flatMap fun i => neighbours num den (i + 1)
  (candidates.find? (readsBack word)).getD (exactDecimal word)

/-- Digits without the zeros at their end, and how many those are. -/
def trimZeros (digits : Bytes) : Bytes × Nat :=
  let kept := (digits.reverse.dropWhile (· = 48)).reverse
  (kept, digits.length - kept.length)

/-- Lays out digits `d₁d₂…` with the value `d₁.d₂… * 10 ^ exponent`. -/
def layout (digits : Bytes) (exponent : Int) : Bytes :=
  if exponent < -4 ∨ 6 ≤ exponent then
    let mantissa := if digits.length ≤ 1 then digits else digits.take 1 ++ 46 :: digits.drop 1
    let size := decimalDigits exponent.natAbs
    mantissa ++ [101, if exponent < 0 then 45 else 43] ++ (if size.length < 2 then 48 :: size else size)
  else if exponent < 0 then
    [48, 46] ++ List.replicate (exponent.natAbs - 1) 48 ++ digits
  else
    let whole := exponent.toNat + 1
    if digits.length ≤ whole then digits ++ List.replicate (whole - digits.length) 48
    else digits.take whole ++ 46 :: digits.drop whole

/-- The text of a positive finite magnitude. -/
def magnitudeText (word : Nat) : Bytes :=
  let d := shortest word
  let (digits, zeros) := trimZeros (decimalDigits d.digits)
  layout digits (d.exponent + zeros + (digits.length - 1))

/-- The text of a double. -/
def Double.text (d : Double) : Bytes :=
  if d.isNaN then Bytes.ofString "NaN"
  else if d.isInfinite then Bytes.ofString (if d.isNegative then "-Inf" else "+Inf")
  else
    let body := if d.isZero then [48] else magnitudeText d.magnitude
    if d.isNegative then 45 :: body else body

end FormulaTypes.Number
