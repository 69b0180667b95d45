import FormulaTypes.Number.Double

/-!
# Digests

The 64-bit digest of a byte message (XXH64 with seed 0), and the messages that numbers, flags and texts contribute.
-/

namespace FormulaTypes.Digest

-- Powers are those of the core library, whatever else is imported.
attribute [local instance (2000)] instPowNat

def prime1 : UInt64 := 0x9E3779B185EBCA87
def prime2 : UInt64 := 0xC2B2AE3D27D4EB4F
def prime3 : UInt64 := 0x165667B19E3779F9
def prime4 : UInt64 := 0x85EBCA77C2B2AE63
def prime5 : UInt64 := 0x27D4EB2F165667C5

/-- Turns a word left by a number of bits. -/
def rotate (x : UInt64) (bits : UInt64) : UInt64 := (x <<< bits) ||| (x >>> (64 - bits))

/-- The word with some bytes, least significant first. -/
def wordOf (bytes : Bytes) : UInt64 := bytes.foldr (fun b w => w * 256 + b.toUInt64) 0

/-- Mixes a word into a lane. -/
def mix (lane input : UInt64) : UInt64 := rotate (lane + input * prime2) 31 * prime1

/-- The four lanes that take in 32 bytes at a time. -/
structure Lanes where
  a : UInt64
  b : UInt64
  c : UInt64
  d : UInt64

namespace Lanes

/-- The lanes before any byte. -/
def start : Lanes := ⟨prime1 + prime2, prime2, 0, 0 - prime1⟩

/-- Takes in `n` blocks of 32 bytes. -/
def absorb : Nat → Lanes → Bytes → Lanes
  | 0, l, _ => l
  | n + 1, l, bytes =>
    absorb n
      ⟨mix l.a (wordOf (bytes.take 8)), mix l.b (wordOf ((bytes.drop 8).take 8)),
        mix l.c (wordOf ((bytes.drop 16).take 8)), mix l.d (wordOf ((bytes.drop 24).take 8))⟩
      (bytes.drop 32)

/-- Joins a lane to the digest. -/
def merge (h lane : UInt64) : UInt64 := (h ^^^ mix 0 lane) * prime1 + prime4

/-- The digest of the lanes. -/
def join (l : Lanes) : UInt64 :=
  let h := rotate l.a 1 + rotate l.b 7 + rotate l.c 12 + rotate l.d 18
  merge (merge (merge (merge h l.a) l.b) l.c) l.d

end Lanes

/-- Takes in what is left after the blocks: eight bytes, four bytes or one at a time. -/
def finish : UInt64 → Bytes → UInt64
  | h, a :: b :: c :: d :: e :: f :: g :: i :: rest =>
    finish (rotate (h ^^^ mix 0 (wordOf [a, b, c, d, e, f, g, i])) 27 * prime1 + prime4) rest
  | h, a :: b :: c :: d :: rest => finish (rotate (h ^^^ (wordOf [a, b, c, d] * prime1)) 23 * prime2 + prime3) rest
  | h, a :: rest => finish (rotate (h ^^^ (a.toUInt64 * prime5)) 11 * prime1) rest
  | h, [] => h

/-- Spreads the bits of a digest. -/
def spread (h : UInt64) : UInt64 :=
  let h := (h ^^^ (h >>> 33)) * prime2
  let h := (h ^^^ (h >>> 29)) * prime3
  h ^^^ (h >>> 32)

/-- The digest of a message. -/
def ofBytes (message : Bytes) : UInt64 :=
  let size := message.length
  let blocks := size / 32
  let h := if blocks = 0 then prime5 else (Lanes.absorb blocks .start message).join
  spread (finish (h + size.toUInt64) (message.drop (32 * blocks)))

/-! ## Parts of a message -/

/-- The `n` low bytes of a number, least significant first. -/
def littleEndian : Nat → Nat → Bytes
  | 0, _ => []
  | n + 1, x => (x % 256).toUInt8 :: littleEndian n (x / 256)

/-- A word: eight bytes. -/
def word (x : UInt64) : Bytes := littleEndian 8 x.toNat

/-- A natural number as a word. -/
def nat (n : Nat) : Bytes := word n.toUInt64

/-- A flag: the word 1 or 0. -/
def flag (b : Bool) : Bytes := word (if b then 1 else 0)

/-- A text: its length and its bytes. -/
def text (s : Bytes) : Bytes := nat s.length ++ s

/-- A double: its bits. -/
def double (d : Number.Double) : Bytes := word d.bits

end FormulaTypes.Digest
