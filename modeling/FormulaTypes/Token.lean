import FormulaTypes.Kind

/-!
# Tokens of the host

Opaque types, and aggregates that were expanded from an entity, carry a token of the host. Two tokens mean the same
thing when their keys agree. A token may say which kind is behind the values of an option set.
-/

namespace FormulaTypes

/-- A token of the host. -/
structure Token where
  /-- What the token is known by. -/
  key : Bytes
  /-- The kind behind the values, if the token declares one at all. -/
  backing : Option Kind
  deriving DecidableEq

namespace Token

/-- Both absent, or both with one key. -/
def same : Option Token → Option Token → Bool
  | none, none => true
  | some a, some b => a.key = b.key
  | _, _ => false

/-- Like `same`, with an absent token fitting every other. -/
def compatible : Option Token → Option Token → Bool
  | some a, some b => a.key = b.key
  | _, _ => true

/-- The backing kind that a token declares, `invalid` if none. -/
def backingKind : Option Token → Kind
  | some { backing := some k, .. } => k
  | _ => .invalid

@[simp] theorem same_self (a : Option Token) : same a a = true := by
  cases a <;> simp [same]

theorem same_symm (a b : Option Token) : same a b = same b a := by
  cases a <;> cases b <;> simp [same, eq_comm]

theorem compatible_of_same {a b : Option Token} (h : same a b = true) : compatible a b = true := by
  cases a <;> cases b <;> simp_all [same, compatible]

end Token

end FormulaTypes
