import FormulaTypes.Checker.Acceptance

/-!
# Comparisons

A comparison says whether a source is accepted and, if it is not, where it does not fit. It is made by an acceptor that
walks through the two types. The acceptor keeps the names of the fields that it went down, as a stack, and the first
difference that it came across: that of a field is not replaced by that of the aggregate around it. Where an enum is
tried as the kind of its literals, what was found on the way is forgotten, and the enum itself is the difference.
-/

namespace FormulaTypes

/-- Where a source does not fit its destination, as the host is told. -/
structure Difference where
  /-- The text of the path to it, empty at the top. -/
  path : Bytes
  expected : Ty
  /-- What the source has there, if anything. -/
  actual : Option Ty

/-- The answer of a comparison. -/
structure Comparison where
  accepted : Bool
  diff : Option Difference

/-! ## Acceptors -/

/-- What an acceptor remembers on its walk. -/
structure Acceptor where
  path : FieldPath
  diff : Option Difference

namespace Acceptor

/-- An acceptor at the start of its walk. -/
def start : Acceptor := ⟨[], none⟩

/-- Goes down to a field. -/
def push (name : Bytes) (a : Acceptor) : Acceptor := { a with path := a.path.push name }

/-- Goes up again. -/
def pop (a : Acceptor) : Acceptor := { a with path := a.path.pop }

/-- Forgets the difference. -/
def forget (a : Acceptor) : Acceptor := { a with diff := none }

/-- Remembers a difference at the current path, unless there is one already. -/
def remember (expected : Ty) (actual : Option Ty) (a : Acceptor) : Acceptor :=
  match a.diff with
  | none => { a with diff := some ⟨a.path.text, expected, actual⟩ }
  | some _ => a

end Acceptor

/-- A walk of an acceptor. -/
abbrev Comparing (α : Type) := StateT Acceptor Run α

namespace Comparing

/-- A run on the way, which the acceptor does not see. -/
def lift {α : Type} (x : Run α) : Comparing α := StateT.lift x

/-- The types do not fit. -/
def fail (expected : Ty) (actual : Option Ty) : Comparing Bool := do
  modify (Acceptor.remember expected actual)
  return false

/-- The types fit if a test says so. -/
def acceptIf (test : Bool) (dst src : Ty) : Comparing Bool := if test then return true else fail dst (some src)

/-- Looks at a field, with its name on the path meanwhile. -/
def inField (name : Bytes) (look : Comparing Bool) : Comparing Bool := do
  modify (Acceptor.push name)
  let ok ← look
  modify Acceptor.pop
  return ok

/-- Looks at fields one after another; those after the first that does not fit are not looked at. -/
def allAlong : List (Bytes × Ty) → (Bytes → Ty → Comparing Bool) → Comparing Bool
  | [], _ => return true
  | (name, t) :: rest, look => do
    if ← look name t then allAlong rest look else return false

end Comparing

open Comparing

namespace Acceptor

mutual

/-- Whether the source fits. -/
def accepts (c : Checker) (dst src : Ty) : Comparing Bool :=
  if dst.kind = .void ∨ src.kind = .void then fail dst (some src)
  else if src.kind = .objNull ∨ dst.kind = .error ∨ src.kind = .unknown then return true
  else if src.kind = .deferred then acceptIf (dst.kind ≠ .unknown) dst src
  else if _restricted : src.kind = .enum ∧ dst.kind ≠ .enum then
    match _plain : Ty.ofKind src.superkind with
    | .error fault => lift (Run.fail fault)
    | .ok base => do
      if ← accepts c dst base then return true
      modify forget
      fail dst (some src)
  else
    match dst.form with
    | .aggregate _ _ _ => aggregateAccepts c dst src
    | .lazy _ _ _ => lazyAccepts c dst src
    | .enum superkind values =>
      acceptIf (src.kind = .enum && superkind = src.superkind && c.rules.valuesAccept values src.values) dst src
    | .leaf .dataEntity _ =>
      if src.kind = .dataEntity && Token.compatible dst.token src.token then return true
      else if src.isEager then do
        match ← lift (Run.lift (dst.expandEntity c.audit c.entities)) with
        | some table =>
          -- No rule before that of aggregates decides two eager ones.
          let expanded ← if src.isTable then pure table else lift (Run.lift (table.toRecord c.audit none))
          aggregateAccepts c expanded src
        | none => fail dst (some src)
      else fail dst (some src)
    | .leaf _ _ | .choices _ _ => acceptIf (c.leafAccepts dst src) dst src
termination_by (src.weight, 2)
decreasing_by
  · exact Prod.Lex.left _ _ (Checker.weight_ofKind_lt _restricted.1 _plain)
  · exact Prod.Lex.right _ (by decide)
  · exact Prod.Lex.right _ (by decide)
  · exact Prod.Lex.right _ (by decide)

/-- Whether the source fits an eager aggregate. -/
def aggregateAccepts (c : Checker) (dst src : Ty) : Comparing Bool :=
  if src.isLazy then
    if dst.kind.sameShape src.kind then fieldsAccept c dst src else fail dst (some src)
  else if src.kind = .optionSetValue ∧ (dst.selection?.any fun column => Token.compatible column.token src.token) then
    return true
  else if dst.kind = src.kind then fieldsAccept c dst src
  else fail dst (some src)
termination_by (src.weight, 1)
decreasing_by
  · exact Prod.Lex.right _ (by decide)
  · exact Prod.Lex.right _ (by decide)

/-- Whether the source fits a lazy type. -/
def lazyAccepts (c : Checker) (dst src : Ty) : Comparing Bool := do
  if src.isLazy then
    if src.kind = dst.kind then acceptIf (← lift (Checker.sameLazyShape dst.provider? src.provider?)) dst src
    else fail dst (some src)
  else if src.kind.sameShape dst.kind then
    match ← lift (dst.expand c.audit) with
    | some expanded => fieldsAccept c expanded src
    | none => fail dst (some src)
  else fail dst (some src)
termination_by (src.weight, 1)
decreasing_by exact Prod.Lex.right _ (by decide)

/-- Whether the source fits along the fields of a destination. Fields of the kind `error` accept everything and are not
looked at. -/
def fieldsAccept (c : Checker) (dst src : Ty) : Comparing Bool :=
  if !src.isLazy && fieldsEqual dst.fields src.fields then return true
  else do
    let ok ← allAlong dst.fields fun name expected =>
      if expected.kind = .error then return true
      else inField name do
        lift (Run.note (src.demand name))
        match _found : src.field? name with
        | some actual => accepts c expected actual
        | none => if c.rules.exact && !dst.optional then fail expected none else return true
    if ok then return true else fail dst (some src)
termination_by (src.weight, 0)
decreasing_by exact Prod.Lex.left _ _ (Ty.weight_lt_of_field? _found)

end

end Acceptor

/-- Compares a source with its destination. -/
def Checker.compare (c : Checker) (dst src : Ty) : Run Comparison := do
  let (ok, a) ← (Acceptor.accepts c dst src).run .start
  if ok then return ⟨true, none⟩
  else return ⟨false, some (a.diff.getD ⟨[], dst, some src⟩)⟩

end FormulaTypes
