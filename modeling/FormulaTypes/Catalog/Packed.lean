import FormulaTypes.Bytes

/-!
# Packed values

The byte format of stored records: values with a one-byte head that tells their kind and often their length. Writers
take the shortest head; readers take any, and return the bytes that are left.

The format is MessagePack, and the definitions stand for what the library `msgpack` does with a record of one integer,
one string and one list of strings.
* It marshals such a record as a map from keys to values, in the order of the keys, with a string for each key, small
  integers in one byte, and the shortest head for every length. Lengths of 2 ^ 32 and more are not meant to occur.
* It unmarshals an integer from any integer format, wrapping what has 64 bits and no sign, a string from strings and
  from blocks of bytes, and a nil as zero, as the empty string or as no list. Floating point numbers are no integers.
* It skips the value of a key it does not know, whatever its format, with all its parts.
Extensions, compression and other options of the library are not used by the store and have no counterpart.
-/

namespace FormulaTypes.Packed

-- Powers are those of the core library, whatever else is imported.
attribute [local instance (2000)] instPowNat

/-- The `n` low bytes of a number, most significant first. -/
def bigEndian : Nat → Nat → Bytes
  | 0, _ => []
  | n + 1, x => bigEndian n (x / 256) ++ [(x % 256).toUInt8]

/-! ## Writing -/

/-- A string: its length and its bytes. -/
def string (s : Bytes) : Bytes :=
  let n := s.length
  if n < 32 then (0xA0 + n).toUInt8 :: s
  else if n < 256 then 0xD9 :: bigEndian 1 n ++ s
  else if n < 65536 then 0xDA :: bigEndian 2 n ++ s
  else 0xDB :: bigEndian 4 n ++ s

/-- The head of an array. -/
def arrayHead (n : Nat) : Bytes :=
  if n < 16 then [(0x90 + n).toUInt8]
  else if n < 65536 then 0xDC :: bigEndian 2 n
  else 0xDD :: bigEndian 4 n

/-- An array of strings. -/
def strings (ss : List Bytes) : Bytes := arrayHead ss.length ++ ss.flatMap string

/-- The head of a map with fewer than 16 entries. -/
def mapHead (n : Nat) : Bytes := [(0x80 + n).toUInt8]

/-- A small natural number. -/
def small (n : Nat) : Bytes := [n.toUInt8]

/-! ## Reading -/

/-- A reader: a value and the bytes that are left. -/
abbrev Reader (α : Type) := Bytes → Option (α × Bytes)

/-- The next `n` bytes. -/
def take (n : Nat) : Reader Bytes := fun s =>
  if n ≤ s.length then some (s.take n, s.drop n) else none

/-- The next `n` bytes as a number, most significant first. -/
def number (n : Nat) : Reader Nat := fun s => do
  let (bytes, rest) ← take n s
  return (bytes.foldl (fun x b => x * 256 + b.toNat) 0, rest)

/-- A number of `bits` bits read as a signed one. -/
def signed (bits : Nat) (x : Nat) : Int := if x < 2 ^ (bits - 1) then x else (x : Int) - 2 ^ bits

/-- An integer; nil counts as zero. Integers without sign of 64 bits wrap around. -/
def readInt : Reader Int
  | [] => none
  | head :: rest =>
    match head with
    | 0xC0 => some (0, rest)
    | 0xCC => (number 1 rest).map fun r => (r.1, r.2)
    | 0xCD => (number 2 rest).map fun r => (r.1, r.2)
    | 0xCE => (number 4 rest).map fun r => (r.1, r.2)
    | 0xCF | 0xD3 => (number 8 rest).map fun r => (signed 64 r.1, r.2)
    | 0xD0 => (number 1 rest).map fun r => (signed 8 r.1, r.2)
    | 0xD1 => (number 2 rest).map fun r => (signed 16 r.1, r.2)
    | 0xD2 => (number 4 rest).map fun r => (signed 32 r.1, r.2)
    | head => if head.toNat < 0x80 ∨ 0xE0 ≤ head.toNat then some (signed 8 head.toNat, rest) else none

/-- A string or a block of bytes; nil counts as empty. -/
def readString : Reader Bytes
  | [] => none
  | head :: rest =>
    match head with
    | 0xC0 => some ([], rest)
    | 0xC4 | 0xD9 => (number 1 rest).bind fun r => take r.1 r.2
    | 0xC5 | 0xDA => (number 2 rest).bind fun r => take r.1 r.2
    | 0xC6 | 0xDB => (number 4 rest).bind fun r => take r.1 r.2
    | head => if 0xA0 ≤ head.toNat ∧ head.toNat < 0xC0 then take (head.toNat - 0xA0) rest else none

/-- The head of an array; nil is none. -/
def readArrayHead : Reader (Option Nat)
  | [] => none
  | head :: rest =>
    match head with
    | 0xC0 => some (none, rest)
    | 0xDC => (number 2 rest).map fun r => (some r.1, r.2)
    | 0xDD => (number 4 rest).map fun r => (some r.1, r.2)
    | head => if 0x90 ≤ head.toNat ∧ head.toNat < 0xA0 then some (some (head.toNat - 0x90), rest) else none

/-- The head of a map; nil is none. -/
def readMapHead : Reader (Option Nat)
  | [] => none
  | head :: rest =>
    match head with
    | 0xC0 => some (none, rest)
    | 0xDE => (number 2 rest).map fun r => (some r.1, r.2)
    | 0xDF => (number 4 rest).map fun r => (some r.1, r.2)
    | head => if 0x80 ≤ head.toNat ∧ head.toNat < 0x90 then some (some (head.toNat - 0x80), rest) else none

/-- Reads a number of values one after another. -/
def repeated {α : Type} (item : Reader α) : Nat → Reader (List α)
  | 0, s => some ([], s)
  | n + 1, s => do
    let (x, s) ← item s
    let (xs, s) ← repeated item n s
    return (x :: xs, s)

/-- An array of strings; nil is none. -/
def readStrings : Reader (Option (List Bytes)) := fun s => do
  let (count, s) ← readArrayHead s
  match count with
  | none => return (none, s)
  | some n =>
    let (items, s) ← repeated readString n s
    return (some items, s)

/-! ## Skipping -/

/-- What a head promises: how many bytes belong to it, and how many values follow as its parts. -/
structure Promise where
  bytes : Nat
  values : Nat

/-- Reads the head of any value. -/
def readHead : Reader Promise
  | [] => none
  | head :: rest =>
    let bytes (n : Nat) : Option (Promise × Bytes) := some (⟨n, 0⟩, rest)
    let block (width extra : Nat) : Option (Promise × Bytes) :=
      (number width rest).map fun r => (⟨r.1 + extra, 0⟩, r.2)
    let values (width each : Nat) : Option (Promise × Bytes) :=
      (number width rest).map fun r => (⟨0, r.1 * each⟩, r.2)
    match head with
    | 0xC0 | 0xC2 | 0xC3 => bytes 0
    | 0xCC | 0xD0 => bytes 1
    | 0xCD | 0xD1 => bytes 2
    | 0xCE | 0xD2 | 0xCA => bytes 4
    | 0xCF | 0xD3 | 0xCB => bytes 8
    | 0xC4 | 0xD9 => block 1 0
    | 0xC5 | 0xDA => block 2 0
    | 0xC6 | 0xDB => block 4 0
    | 0xC7 => block 1 1
    | 0xC8 => block 2 1
    | 0xC9 => block 4 1
    | 0xD4 => bytes 2
    | 0xD5 => bytes 3
    | 0xD6 => bytes 5
    | 0xD7 => bytes 9
    | 0xD8 => bytes 17
    | 0xDC => values 2 1
    | 0xDD => values 4 1
    | 0xDE => values 2 2
    | 0xDF => values 4 2
    | head =>
      let n := head.toNat
      if n < 0x80 ∨ 0xE0 ≤ n then bytes 0
      else if n < 0x90 then some (⟨0, (n - 0x80) * 2⟩, rest)
      else if n < 0xA0 then some (⟨0, n - 0x90⟩, rest)
      else if n < 0xC0 then bytes (n - 0xA0)
      else none

/-- Skips a number of values with all their parts; the fuel bounds the heads that are read. -/
def skipFuel : Nat → Nat → Bytes → Option Bytes
  | _, 0, s => some s
  | 0, _ + 1, _ => none
  | fuel + 1, pending + 1, s => do
    let (promise, s) ← readHead s
    let (_, s) ← take promise.bytes s
    skipFuel fuel (pending + promise.values) s

/-- Skips one value. -/
def skip (s : Bytes) : Option Bytes := skipFuel s.length 1 s

end FormulaTypes.Packed
