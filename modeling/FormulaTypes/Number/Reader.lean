import FormulaTypes.Number.Decimal
import FormulaTypes.Number.Double

/-!
# Reading numbers

The text of a number: a decimal fraction with an optional decimal exponent, a hexadecimal fraction with a binary
exponent, an infinity or NaN. Underscores may stand between digits. The value is the nearest one of the format, as
far as `Numeral.magnitude` looks.
-/

namespace FormulaTypes.Number

-- Powers are those of the core library, whatever else is imported.
attribute [local instance (2000)] instPowNat

/-- Why a text is no number. -/
inductive NumberError where
  | malformed
  | outOfRange
  deriving DecidableEq

/-- An upper-case letter made lower-case. -/
def lower (c : UInt8) : UInt8 := if 65 ≤ c.toNat ∧ c.toNat ≤ 90 then c + 32 else c

/-- The value of a digit in base ten, or in base sixteen. -/
def digit? (hex : Bool) (c : UInt8) : Option Nat :=
  if 48 ≤ c.toNat ∧ c.toNat ≤ 57 then some (c.toNat - 48)
  else if hex ∧ 97 ≤ (lower c).toNat ∧ (lower c).toNat ≤ 102 then some ((lower c).toNat - 87)
  else none

/-- Cuts off a sign and tells whether it is a minus. -/
def splitSign : Bytes → Bool × Bytes
  | 43 :: rest => (false, rest)
  | 45 :: rest => (true, rest)
  | s => (false, s)

/-- Cuts off the mark of a hexadecimal number that has more to follow. -/
def splitBase : Bytes → Bool × Bytes
  | 48 :: x :: c :: rest => if lower x = 120 then (true, c :: rest) else (false, 48 :: x :: c :: rest)
  | s => (false, s)

/-! ## Underscores -/

/-- What the last character was, for the placing of underscores. -/
inductive Last where
  | digit
  | underscore
  | other

/-- Every underscore stands after a digit and before one. -/
def separates (hex : Bool) : Last → Bytes → Bool
  | .underscore, [] => false
  | _, [] => true
  | last, c :: rest =>
    if (digit? hex c).isSome then separates hex .digit rest
    else
      match last, decide (c = 95) with
      | .digit, true => separates hex .underscore rest
      | _, true => false
      | .underscore, false => false
      | _, false => separates hex .other rest

/-- Underscores stand between digits, or after the mark of a base. -/
def underscoresPlaced (s : Bytes) : Bool :=
  match (splitSign s).2 with
  | 48 :: x :: rest =>
    if lower x = 120 then separates true .digit rest
    else if lower x = 98 ∨ lower x = 111 then separates false .digit rest
    else separates false .other (48 :: x :: rest)
  | rest => separates false .other rest

/-! ## Digits and exponents -/

/-- Digits read so far: their value, how many there were, how many of these from the first one on that is not zero,
and how many stood after the point. -/
structure Significand where
  value : Nat
  count : Nat
  figures : Nat
  places : Nat
  point : Bool

/-- Nothing read yet. -/
def Significand.empty : Significand := ⟨0, 0, 0, 0, false⟩

/-- One more digit. -/
def Significand.push (acc : Significand) (base digit : Nat) : Significand :=
  let value := acc.value * base + digit
  { acc with
    value := value
    count := acc.count + 1
    figures := if value = 0 then 0 else acc.figures + 1
    places := if acc.point then acc.places + 1 else acc.places }

/-- Reads digits with at most one point among them, passing over underscores. -/
def readSignificand (hex : Bool) : Significand → Bytes → Significand × Bytes
  | acc, [] => (acc, [])
  | acc, c :: rest =>
    if c = 95 then readSignificand hex acc rest
    else if c = 46 ∧ ¬ acc.point then readSignificand hex { acc with point := true } rest
    else
      match digit? hex c with
      | some d => readSignificand hex (acc.push (if hex then 16 else 10) d) rest
      | none => (acc, c :: rest)

/-- Reads the digits of an exponent, passing over underscores. Past five figures only the size matters, and further
digits are dropped. -/
def readExponentDigits : Nat → Bytes → Nat × Bytes
  | acc, [] => (acc, [])
  | acc, c :: rest =>
    if c = 95 then readExponentDigits acc rest
    else
      match digit? false c with
      | some d => readExponentDigits (if acc < 10000 then acc * 10 + d else acc) rest
      | none => (acc, c :: rest)

/-- Reads an exponent after its letter. -/
def readExponent? (s : Bytes) : Option (Int × Bytes) :=
  let (negative, digits) := splitSign s
  match digits with
  | [] => none
  | c :: _ =>
    if (digit? false c).isSome then
      let (size, rest) := readExponentDigits 0 digits
      some (if negative then -(size : Int) else size, rest)
    else none

/-- A finite number as it is written. -/
structure Written where
  negative : Bool
  hex : Bool
  digits : Significand
  exponent : Int

/-- Reads the text of a finite number. -/
def readWritten? (s : Bytes) : Option Written :=
  let (negative, unsigned) := splitSign s
  let (hex, body) := splitBase unsigned
  let (digits, rest) := readSignificand hex .empty body
  if digits.count = 0 ∨ (s.contains 95 ∧ ¬ underscoresPlaced s) then none
  else
    match rest with
    | [] => if hex then none else some ⟨negative, hex, digits, 0⟩
    | c :: tail =>
      if lower c = (if hex then 112 else 101) then
        match readExponent? tail with
        | some (exponent, []) => some ⟨negative, hex, digits, exponent⟩
        | _ => none
      else none

/-- The magnitude of a hexadecimal number: its digits times a power of two. -/
def Written.hexMagnitude (b : Binary) (w : Written) : Nat :=
  let exponent := w.exponent - 4 * w.digits.places
  if 0 ≤ exponent then b.round (w.digits.value * 2 ^ exponent.toNat) 1
  else b.round w.digits.value (2 ^ (-exponent).toNat)

/-- A decimal number as a numeral. -/
def Written.numeral (w : Written) : Numeral :=
  ⟨w.digits.value, w.digits.figures, w.digits.figures - w.digits.places, w.exponent⟩

/-- The magnitude of a written number. -/
def Written.magnitude (b : Binary) (w : Written) : Nat :=
  if w.hex then w.hexMagnitude b else w.numeral.magnitude b

/-! ## Numbers -/

/-- The infinities and NaN by name: a sign and a magnitude past the finite ones. -/
def readNamed? (s : Bytes) : Option (Bool × Bool) :=
  let (negative, name) := splitSign s
  let word := name.map lower
  if word = Bytes.ofString "inf" ∨ word = Bytes.ofString "infinity" then some (negative, false)
  else if s.map lower = Bytes.ofString "nan" then some (false, true)
  else none

/-- The sign and the magnitude that a text stands for. -/
def readMagnitude (b : Binary) (s : Bytes) : Except NumberError (Bool × Nat) :=
  match readNamed? s with
  | some (negative, isNaN) => .ok (negative, if isNaN then b.nan else b.infinity)
  | none =>
    match readWritten? s with
    | none => .error .malformed
    | some w =>
      let word := w.magnitude b
      if word < b.infinity then .ok (w.negative, word) else .error .outOfRange

/-- Reads a double. -/
def Double.read (s : Bytes) : Except NumberError Double :=
  (readMagnitude .double s).map fun (negative, word) => ofMagnitude negative word

/-- Reads a single precision word; what is too large becomes infinite. -/
def readSingle? (s : Bytes) : Option UInt32 :=
  let word (negative : Bool) (size : Nat) : UInt32 := (size + if negative then 0x80000000 else 0).toUInt32
  match readMagnitude .single s with
  | .ok (negative, size) => some (word negative size)
  | .error .outOfRange => some (word (splitSign s).1 Binary.single.infinity)
  | .error .malformed => none

/-- Reads a double; what is too large becomes infinite. -/
def Double.readSaturated? (s : Bytes) : Option Double :=
  match Double.read s with
  | .ok d => some d
  | .error .outOfRange => some (infinity (splitSign s).1)
  | .error .malformed => none

end FormulaTypes.Number
