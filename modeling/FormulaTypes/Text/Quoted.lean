import FormulaTypes.Text.Utf8
import FormulaTypes.Text.Printable

/-!
# Quoted text

How messages quote a byte string: between double quotes, with a backslash before quotes and backslashes, short escapes
for the common controls, and numeric escapes for all that cannot be printed.
-/

namespace FormulaTypes.Text

/-- A lower-case hexadecimal digit. -/
def hexDigit (n : Nat) : UInt8 := if n < 10 then (48 + n).toUInt8 else (87 + n).toUInt8

/-- The last `width` hexadecimal digits of a number. -/
def hexDigits : Nat → Nat → Bytes
  | 0, _ => []
  | width + 1, n => hexDigits width (n / 16) ++ [hexDigit (n % 16)]

/-- The letter of a short escape. -/
def shortEscape? : Nat → Option UInt8
  | 0x07 => some 97
  | 0x08 => some 98
  | 0x0C => some 102
  | 0x0A => some 110
  | 0x0D => some 114
  | 0x09 => some 116
  | 0x0B => some 118
  | 0x22 => some 0x22
  | 0x5C => some 0x5C
  | _ => none

/-- How one piece stands between quotes. -/
def quotePiece : Piece → Bytes
  | .stray b => 0x5C :: 120 :: hexDigits 2 b.toNat
  | .point code =>
    match shortEscape? code with
    | some letter => [0x5C, letter]
    | none =>
      if isPrintable code then encodePoint code
      else if code < 0x20 ∨ code = 0x7F then 0x5C :: 120 :: hexDigits 2 code
      else if code < 0x10000 then 0x5C :: 117 :: hexDigits 4 code
      else 0x5C :: 85 :: hexDigits 8 code

/-- A byte string in quotes. -/
def quote (s : Bytes) : Bytes := 0x22 :: (pieces s).flatMap quotePiece ++ [0x22]

end FormulaTypes.Text
