import FormulaTypes.Bytes

/-!
# UTF-8

A byte string read as UTF-8 is a list of pieces: the code points that are well encoded, and each byte that belongs to
none of them.
-/

namespace FormulaTypes.Text

/-- A piece of a byte string read as UTF-8. -/
inductive Piece where
  /-- A code point that is encoded as it should be. -/
  | point (code : Nat)
  /-- A byte that is part of no code point. -/
  | stray (byte : UInt8)
  deriving DecidableEq

/-- The payload of a continuation byte. -/
def continuation? (b : UInt8) : Option Nat :=
  if 0x80 ≤ b.toNat ∧ b.toNat ≤ 0xBF then some (b.toNat - 0x80) else none

/-- The code point of two bytes, if it needs two. -/
def twoBytes? (a b : UInt8) : Option Nat := do
  let y ← continuation? b
  if 0xC2 ≤ a.toNat ∧ a.toNat ≤ 0xDF then some ((a.toNat - 0xC0) * 64 + y) else none

/-- The code point of three bytes, if it needs three and is no surrogate. -/
def threeBytes? (a b c : UInt8) : Option Nat := do
  let y ← continuation? b
  let z ← continuation? c
  let code := (a.toNat - 0xE0) * 4096 + y * 64 + z
  if 0xE0 ≤ a.toNat ∧ a.toNat ≤ 0xEF ∧ 0x800 ≤ code ∧ ¬ (0xD800 ≤ code ∧ code ≤ 0xDFFF) then some code else none

/-- The code point of four bytes, if it needs four and is in range. -/
def fourBytes? (a b c d : UInt8) : Option Nat := do
  let y ← continuation? b
  let z ← continuation? c
  let w ← continuation? d
  let code := (a.toNat - 0xF0) * 262144 + y * 4096 + z * 64 + w
  if 0xF0 ≤ a.toNat ∧ a.toNat ≤ 0xF4 ∧ 0x10000 ≤ code ∧ code ≤ 0x10FFFF then some code else none

/-- The code point at the front and how many bytes follow its first. -/
def front? : Bytes → Option (Nat × Nat)
  | [] => none
  | [a] => if a.toNat < 0x80 then some (a.toNat, 0) else none
  | [a, b] =>
    if a.toNat < 0x80 then some (a.toNat, 0) else (twoBytes? a b).map (·, 1)
  | [a, b, c] =>
    if a.toNat < 0x80 then some (a.toNat, 0)
    else ((twoBytes? a b).map (·, 1)).or ((threeBytes? a b c).map (·, 2))
  | a :: b :: c :: d :: _ =>
    if a.toNat < 0x80 then some (a.toNat, 0)
    else (((twoBytes? a b).map (·, 1)).or ((threeBytes? a b c).map (·, 2))).or ((fourBytes? a b c d).map (·, 3))

/-- The pieces of a byte string after `skip` of its bytes. -/
def piecesFrom : Nat → Bytes → List Piece
  | _, [] => []
  | skip + 1, _ :: rest => piecesFrom skip rest
  | 0, b :: rest =>
    match front? (b :: rest) with
    | some (code, more) => .point code :: piecesFrom more rest
    | none => .stray b :: piecesFrom 0 rest

/-- The pieces of a byte string. -/
def pieces (s : Bytes) : List Piece := piecesFrom 0 s

/-- The UTF-8 bytes of a code point. -/
def encodePoint (code : Nat) : Bytes :=
  if code < 0x80 then [code.toUInt8]
  else if code < 0x800 then [(0xC0 + code / 64).toUInt8, (0x80 + code % 64).toUInt8]
  else if code < 0x10000 then
    [(0xE0 + code / 4096).toUInt8, (0x80 + code / 64 % 64).toUInt8, (0x80 + code % 64).toUInt8]
  else
    [(0xF0 + code / 262144).toUInt8, (0x80 + code / 4096 % 64).toUInt8, (0x80 + code / 64 % 64).toUInt8,
      (0x80 + code % 64).toUInt8]

/-- A byte string as a text, with the replacement character for each stray byte. -/
def display (s : Bytes) : String :=
  String.ofList <| (pieces s).map fun
    | .point code => Char.ofNat code
    | .stray _ => Char.ofNat 0xFFFD

end FormulaTypes.Text
