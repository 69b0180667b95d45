import FormulaTypes.Kind
import FormulaTypes.NameMap
import FormulaTypes.Digest

/-!
# Enum literals

An enum names literals: numbers, flags or texts. Numbers of every width become doubles, so that 1 and 1.0 are equal.
-/

namespace FormulaTypes

open Number (Double)

/-- A literal of an enum. -/
inductive Literal where
  | number (value : Double)
  | flag (value : Bool)
  | text (value : Bytes)
  deriving DecidableEq

namespace Literal

/-- Equality of literals: all NaNs are equal, and so are the two zeros. -/
def same : Literal → Literal → Bool
  | .number a, .number b => a.same b
  | .flag a, .flag b => a = b
  | .text a, .text b => a = b
  | _, _ => false

@[simp] theorem same_self (a : Literal) : a.same a = true := by
  cases a <;> simp [same]

theorem same_symm (a b : Literal) : a.same b = b.same a := by
  cases a <;> cases b <;> simp [same, Double.same_symm, eq_comm]

/-- What a literal contributes to the digest of its enum. -/
def message : Literal → Bytes
  | .number d => Digest.nat 1 ++ Digest.double d.canonical
  | .flag b => Digest.nat 2 ++ Digest.flag b
  | .text s => Digest.nat 3 ++ Digest.text s

/-- Equal literals contribute the same. -/
theorem message_eq_of_same {a b : Literal} (h : a.same b = true) : a.message = b.message := by
  cases a <;> cases b <;> simp_all [same, message, Double.same]

end Literal

/-! ## Values offered as literals -/

/-- A value that the host offers as a literal. -/
inductive Offer where
  | double (value : Double)
  | single (word : UInt32)
  | integer (value : Int)
  | flag (value : Bool)
  | text (value : Bytes)
  /-- No value at all. -/
  | nothing
  /-- A value that can be no literal. -/
  | foreign

/-- The literal of an offered value, with numbers widened to doubles. -/
def Offer.literal? : Offer → Option Literal
  | .double d => some (.number d)
  | .single w => some (.number (.ofSingle w))
  | .integer i => some (.number (.ofInt i))
  | .flag b => some (.flag b)
  | .text s => some (.text s)
  | .nothing | .foreign => none

/-- Whether two offered values are equal literals. -/
def Offer.same (a b : Offer) : Bool :=
  match a.literal?, b.literal? with
  | some x, some y => x.same y
  | _, _ => false

/-! ## Named literals -/

/-- The literals of an enum by name. -/
abbrev Values := OrderedMap Literal

namespace Values

/-- What entries contribute to the digest. -/
def entriesMessage : NameMap Literal → Bytes
  | [] => []
  | (name, value) :: rest => Digest.text name ++ value.message ++ entriesMessage rest

/-- The digest of named literals. -/
def digest (vs : Values) : UInt64 :=
  Digest.ofBytes (Digest.nat vs.entries.length ++ entriesMessage vs.entries)

/-- The same names with equal literals, entry by entry. -/
def entriesAgree : NameMap Literal → NameMap Literal → Bool
  | [], [] => true
  | (a, x) :: vs, (b, y) :: ws => a = b && x.same y && entriesAgree vs ws
  | _, _ => false

/-- The same names with equal literals. -/
def agree (vs ws : Values) : Bool := entriesAgree vs.entries ws.entries

/-- Equality of named literals: of their lengths, their entries and their digests. -/
def equal (vs ws : Values) : Bool :=
  vs.entries.length = ws.entries.length && vs.agree ws && vs.digest = ws.digest

theorem agree_self (vs : Values) : agree vs vs = true := by
  unfold agree
  induction vs.entries with
  | nil => rfl
  | cons e entries ih => simp [entriesAgree, ih]

theorem length_eq_of_entriesAgree : ∀ {vs ws : NameMap Literal}, entriesAgree vs ws = true → vs.length = ws.length
  | [], [], _ => rfl
  | _ :: vs, _ :: ws, h => by
    simp only [entriesAgree, Bool.and_eq_true] at h
    simp [length_eq_of_entriesAgree h.2]
  | [], _ :: _, h => by simp [entriesAgree] at h
  | _ :: _, [], h => by simp [entriesAgree] at h

theorem entriesMessage_eq_of_entriesAgree :
    ∀ {vs ws : NameMap Literal}, entriesAgree vs ws = true → entriesMessage vs = entriesMessage ws
  | [], [], _ => rfl
  | (a, x) :: vs, (b, y) :: ws, h => by
    simp only [entriesAgree, Bool.and_eq_true, decide_eq_true_eq] at h
    obtain ⟨⟨rfl, hx⟩, hr⟩ := h
    simp [entriesMessage, Literal.message_eq_of_same hx, entriesMessage_eq_of_entriesAgree hr]
  | [], _ :: _, h => by simp [entriesAgree] at h
  | _ :: _, [], h => by simp [entriesAgree] at h

/-- Comparing lengths and digests as well changes nothing. -/
theorem equal_eq_agree (vs ws : Values) : equal vs ws = agree vs ws := by
  cases h : agree vs ws with
  | false => simp [equal, h]
  | true => simp [equal, h, digest, length_eq_of_entriesAgree h, entriesMessage_eq_of_entriesAgree h]

end Values

end FormulaTypes
