import FormulaTypes.Ty.Basic

/-!
# Validity

A type is valid when it carries exactly what its kind asks for. Types that are not valid can be built, and are refused
only where new types are audited.
-/

namespace FormulaTypes

/-- What is wrong with a type. -/
inductive Violation where
  /-- The kind is the kind of no type. -/
  | kindOutOfRange (kind : Kind)
  /-- The literals of an enum are of no plain kind. -/
  | enumSuperkind (superkind : Kind)
  /-- A lazy type has no provider. -/
  | noProvider (kind : Kind)
  /-- A type that stands for nothing of the host has a token. -/
  | strayToken (kind : Kind)
  deriving DecidableEq

/-- The wording of a violation. -/
def Violation.text : Violation → String
  | .kindOutOfRange kind => s!"kind {kind.name} out of range"
  | .enumSuperkind superkind => s!"enum has invalid superkind {superkind.name}"
  | .noProvider kind => s!"{kind.name} has mismatched lazy provider"
  | .strayToken kind => s!"{kind.name} carries an annotation"

namespace Ty

/-- The violation of a type, if there is one. -/
def violation? (t : Ty) : Option Violation :=
  if !t.kind.isValid then some (.kindOutOfRange t.kind)
  else if t.kind = .enum && !t.superkind.isPrimitive then some (.enumSuperkind t.superkind)
  else if t.kind.isLazy && t.provider?.isNone then some (.noProvider t.kind)
  else if t.token.isSome && !t.kind.isOpaque && !t.kind.isAggregate then some (.strayToken t.kind)
  else none

/-- The type carries exactly what its kind asks for. -/
def isValid (t : Ty) : Bool := t.violation?.isNone

end Ty

end FormulaTypes
