import FormulaTypes.Catalog.Packed
import Mathlib.Data.List.Forall2
import Mathlib.Tactic.Ring

/-!
# Packed values read back

A length may stand in its head or in the bytes behind it, in any number of bytes that there is a head for (`IsHead`).
A reader that is given a string or an array of strings under any such head, with anything behind it, gives the value
and leaves what is behind (`readString_of_isString`, `readStrings_of_isStrings`). Writers take one of the heads if the
length fits into four bytes (`isString_string`, `isStrings_strings`), and never a longer one than others would
(`length_string_le`, `length_strings_le`). What is written is at least as long as each string in it and as their number,
so a bound on the whole is one on the parts.
-/

namespace FormulaTypes.Packed

-- Powers are those of the core library, whatever else is imported.
attribute [local instance (2000)] instPowNat

/-- What four bytes of length can tell. -/
def lengthBound : Nat := 4294967296

/-! ## Numbers -/

theorem length_bigEndian (n x : Nat) : (bigEndian n x).length = n := by
  induction n generalizing x with
  | zero => rfl
  | succ n ih => rw [bigEndian, List.length_append, ih, List.length_singleton]

theorem toNat_byte (x : Nat) : (x % 256).toUInt8.toNat = x % 256 := by
  rw [Nat.toUInt8_eq, UInt8.toNat_ofNat']
  omega

/-- The bytes of a number spell it. -/
theorem foldl_bigEndian {n x : Nat} (h : x < 256 ^ n) :
    (bigEndian n x).foldl (fun y b => y * 256 + b.toNat) 0 = x := by
  induction n generalizing x with
  | zero =>
    have : x = 0 := by simpa using h
    rw [this]
    rfl
  | succ n ih =>
    have hhigh : x / 256 < 256 ^ n := by
      rw [Nat.div_lt_iff_lt_mul (by decide), ← pow_succ]
      exact h
    rw [bigEndian, List.foldl_append, ih hhigh, List.foldl_cons, List.foldl_nil, toNat_byte]
    omega

theorem take_append {n : Nat} {s : Bytes} (h : s.length = n) (rest : Bytes) : take n (s ++ rest) = some (s, rest) := by
  subst h
  rw [take, if_pos (by rw [List.length_append]; omega), List.take_left, List.drop_left]

theorem number_bigEndian {n x : Nat} (h : x < 256 ^ n) (rest : Bytes) :
    number n (bigEndian n x ++ rest) = some (x, rest) := by
  simp only [number, take_append (length_bigEndian n x), Option.bind_eq_bind, Option.bind_some, foldl_bigEndian h]
  rfl

/-! ## Heads

A head of one byte falls in a range of its own, apart from the heads that announce a longer one. -/

/-- The bytes are a head for a length: one byte above a base, or a head that announces as many bytes as the length
needs. -/
inductive IsHead (base limit : Nat) (wider : List (UInt8 × Nat)) (n : Nat) : Bytes → Prop
  | short (h : n < limit) : IsHead base limit wider n [(base + n).toUInt8]
  | long {head : UInt8} {width : Nat} (hh : (head, width) ∈ wider) (h : n < 256 ^ width) :
      IsHead base limit wider n (head :: bigEndian width n)

/-- The heads of strings. -/
def IsStringHead : Nat → Bytes → Prop := IsHead 0xA0 32 [(0xD9, 1), (0xDA, 2), (0xDB, 4)]

/-- The heads of arrays. -/
def IsArrayHead : Nat → Bytes → Prop := IsHead 0x90 16 [(0xDC, 2), (0xDD, 4)]

/-- The heads of maps. -/
def IsMapHead : Nat → Bytes → Prop := IsHead 0x80 16 [(0xDE, 2), (0xDF, 4)]

theorem toNat_head (base n : Nat) (h : base + n < 256) : (base + n).toUInt8.toNat = base + n := by
  rw [Nat.toUInt8_eq, UInt8.toNat_ofNat', Nat.mod_eq_of_lt (by simpa using h)]

theorem readString_head {head : UInt8} (h : 0xA0 ≤ head.toNat ∧ head.toNat < 0xC0) (rest : Bytes) :
    readString (head :: rest) = take (head.toNat - 0xA0) rest := by
  simp only [readString]
  split
  case h_8 => exact if_pos h
  all_goals exact absurd h (by decide)

theorem readArrayHead_head {head : UInt8} (h : 0x90 ≤ head.toNat ∧ head.toNat < 0xA0) (rest : Bytes) :
    readArrayHead (head :: rest) = some (some (head.toNat - 0x90), rest) := by
  simp only [readArrayHead]
  split
  case h_4 => exact if_pos h
  all_goals exact absurd h (by decide)

theorem readMapHead_head {head : UInt8} (h : 0x80 ≤ head.toNat ∧ head.toNat < 0x90) (rest : Bytes) :
    readMapHead (head :: rest) = some (some (head.toNat - 0x80), rest) := by
  simp only [readMapHead]
  split
  case h_4 => exact if_pos h
  all_goals exact absurd h (by decide)

theorem readArrayHead_of_isArrayHead {n : Nat} {head : Bytes} (h : IsArrayHead n head) (rest : Bytes) :
    readArrayHead (head ++ rest) = some (some n, rest) := by
  cases h with
  | short h =>
    have hhead := toNat_head 0x90 n (by omega)
    rw [List.singleton_append, readArrayHead_head (by omega), hhead, Nat.add_sub_cancel_left]
  | long hh h =>
    have hnumber := number_bigEndian h rest
    simp only [List.mem_cons, Prod.mk.injEq, List.not_mem_nil, or_false] at hh
    rcases hh with ⟨rfl, rfl⟩ | ⟨rfl, rfl⟩
    all_goals
      simp only [List.cons_append, readArrayHead, hnumber]
      rfl

theorem readMapHead_of_isMapHead {n : Nat} {head : Bytes} (h : IsMapHead n head) (rest : Bytes) :
    readMapHead (head ++ rest) = some (some n, rest) := by
  cases h with
  | short h =>
    have hhead := toNat_head 0x80 n (by omega)
    rw [List.singleton_append, readMapHead_head (by omega), hhead, Nat.add_sub_cancel_left]
  | long hh h =>
    have hnumber := number_bigEndian h rest
    simp only [List.mem_cons, Prod.mk.injEq, List.not_mem_nil, or_false] at hh
    rcases hh with ⟨rfl, rfl⟩ | ⟨rfl, rfl⟩
    all_goals
      simp only [List.cons_append, readMapHead, hnumber]
      rfl

/-! ## Strings -/

/-- The bytes are a string under some head. -/
def IsString (s bytes : Bytes) : Prop := ∃ head, IsStringHead s.length head ∧ bytes = head ++ s

theorem readString_of_isString {s bytes : Bytes} (h : IsString s bytes) (rest : Bytes) :
    readString (bytes ++ rest) = some (s, rest) := by
  obtain ⟨head, hhead, rfl⟩ := h
  rw [List.append_assoc]
  cases hhead with
  | short h =>
    have hhead := toNat_head 0xA0 s.length (by omega)
    rw [List.singleton_append, readString_head (by omega), hhead, Nat.add_sub_cancel_left, take_append rfl]
  | @long head width hh h =>
    have hlong : ((number width (bigEndian width s.length ++ (s ++ rest))).bind fun r => take r.1 r.2) =
        some (s, rest) := by
      rw [number_bigEndian h, Option.bind_some, take_append rfl]
    simp only [List.mem_cons, Prod.mk.injEq, List.not_mem_nil, or_false] at hh
    rcases hh with ⟨rfl, rfl⟩ | ⟨rfl, rfl⟩ | ⟨rfl, rfl⟩ <;> exact hlong

theorem isString_string {s : Bytes} (h : s.length < lengthBound) : IsString s (string s) := by
  unfold lengthBound at h
  simp only [string]
  split
  · next hshort => exact ⟨_, .short hshort, rfl⟩
  · split_ifs with hone htwo
    · exact ⟨_, .long (show ((0xD9 : UInt8), 1) ∈ _ by simp) (by omega), rfl⟩
    · exact ⟨_, .long (show ((0xDA : UInt8), 2) ∈ _ by simp) (by omega), rfl⟩
    · exact ⟨_, .long (show ((0xDB : UInt8), 4) ∈ _ by simp) (by omega), rfl⟩

/-- No head makes a string shorter than the one it is written with. -/
theorem length_string_le {s bytes : Bytes} (h : IsString s bytes) : (string s).length ≤ bytes.length := by
  obtain ⟨head, hhead, rfl⟩ := h
  simp only [string]
  cases hhead with
  | short h =>
    rw [if_pos h]
    exact Nat.le_refl _
  | long hh h =>
    simp only [List.mem_cons, Prod.mk.injEq, List.not_mem_nil, or_false] at hh
    rcases hh with ⟨rfl, rfl⟩ | ⟨rfl, rfl⟩ | ⟨rfl, rfl⟩
    all_goals
      split_ifs
      all_goals
        simp only [List.length_cons, List.length_append, length_bigEndian]
        omega

theorem length_le_length_string (s : Bytes) : s.length ≤ (string s).length := by
  simp only [string]
  split_ifs <;> simp only [List.length_cons, List.length_append] <;> omega

/-! ## Arrays of strings -/

/-- The bytes are an array of strings, each under some head. -/
def IsStrings (ss : List Bytes) (bytes : Bytes) : Prop :=
  ∃ head items, IsArrayHead ss.length head ∧ List.Forall₂ IsString ss items ∧ bytes = head ++ items.flatten

theorem repeated_of_isString {ss items : List Bytes} (h : List.Forall₂ IsString ss items) (rest : Bytes) :
    repeated readString ss.length (items.flatten ++ rest) = some (ss, rest) := by
  induction h with
  | nil => rfl
  | cons hs _ ih =>
    rw [List.flatten_cons, List.append_assoc, List.length_cons, repeated, readString_of_isString hs]
    simp only [Option.bind_eq_bind, Option.bind_some, ih]
    rfl

theorem readStrings_of_isStrings {ss : List Bytes} {bytes : Bytes} (h : IsStrings ss bytes) (rest : Bytes) :
    readStrings (bytes ++ rest) = some (some ss, rest) := by
  obtain ⟨head, items, hhead, hitems, rfl⟩ := h
  rw [List.append_assoc, readStrings, readArrayHead_of_isArrayHead hhead]
  simp only [Option.bind_eq_bind, Option.bind_some, repeated_of_isString hitems]
  rfl

theorem isStrings_strings {ss : List Bytes} (hn : ss.length < lengthBound) (h : ∀ s ∈ ss, s.length < lengthBound) :
    IsStrings ss (strings ss) := by
  refine ⟨arrayHead ss.length, ss.map string, ?_, ?_, rfl⟩
  · unfold lengthBound at hn
    unfold arrayHead
    split
    · next hshort => exact .short hshort
    · split
      · exact .long (show ((0xDC : UInt8), 2) ∈ _ by simp) (by omega)
      · exact .long (show ((0xDD : UInt8), 4) ∈ _ by simp) (by omega)
  · exact List.forall₂_map_right_iff.2 (List.forall₂_same.2 fun s hs => isString_string (h s hs))

theorem length_arrayHead_le {n : Nat} {head : Bytes} (h : IsArrayHead n head) :
    (arrayHead n).length ≤ head.length := by
  unfold arrayHead
  cases h with
  | short h => rw [if_pos h]
  | long hh h =>
    simp only [List.mem_cons, Prod.mk.injEq, List.not_mem_nil, or_false] at hh
    rcases hh with ⟨rfl, rfl⟩ | ⟨rfl, rfl⟩
    all_goals
      split_ifs
      all_goals
        simp only [List.length_cons, List.length_nil, length_bigEndian]
        omega

/-- No heads make an array of strings shorter than it is written. -/
theorem length_strings_le {ss : List Bytes} {bytes : Bytes} (h : IsStrings ss bytes) :
    (strings ss).length ≤ bytes.length := by
  obtain ⟨head, items, hhead, hitems, rfl⟩ := h
  have hflat : (ss.flatMap string).length ≤ items.flatten.length := by
    clear hhead
    induction hitems with
    | nil => exact Nat.le_refl 0
    | cons hs _ ih =>
      rw [List.flatMap_cons, List.flatten_cons, List.length_append, List.length_append]
      exact Nat.add_le_add (length_string_le hs) ih
  rw [strings, List.length_append, List.length_append]
  exact Nat.add_le_add (length_arrayHead_le hhead) hflat

theorem length_le_length_flatMap (ss : List Bytes) : ss.length ≤ (ss.flatMap string).length := by
  induction ss with
  | nil => exact Nat.le_refl 0
  | cons s ss ih =>
    have : 0 < (string s).length := by
      simp only [string]
      split_ifs <;> exact Nat.succ_pos _
    rw [List.flatMap_cons, List.length_append, List.length_cons]
    omega

theorem length_le_of_mem_flatMap {ss : List Bytes} {s : Bytes} (h : s ∈ ss) :
    s.length ≤ (ss.flatMap string).length := by
  induction ss with
  | nil => cases h
  | cons s' ss ih =>
    rw [List.flatMap_cons, List.length_append]
    rcases List.mem_cons.1 h with rfl | h
    · have := length_le_length_string s
      omega
    · have := ih h
      omega

end FormulaTypes.Packed
