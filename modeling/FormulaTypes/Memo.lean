import FormulaTypes.Run

/-!
# Memos

A provider with a cell remembers the types it has resolved: a resolver that gives a type is called once, one that
gives none is called again at each demand. The calls of host resolvers can be seen by the host.
-/

namespace FormulaTypes

/-- A call of a host resolver. -/
structure Call where
  provider : Bytes
  field : Bytes
  deriving DecidableEq

/-- The resolved types, by cell and field. -/
structure Memo where
  entries : List (Nat × Bytes × Ty)

namespace Memo

/-- Nothing remembered. -/
def empty : Memo := ⟨[]⟩

/-- The type remembered for a field. -/
def find? (m : Memo) (cell : Option Nat) (field : Bytes) : Option Ty :=
  (m.entries.find? fun e => some e.1 = cell && e.2.1 = field).map fun e => e.2.2

/-- Remembers the type of a field, if there is a cell for it. -/
def remember (m : Memo) (cell : Option Nat) (field : Bytes) (t : Ty) : Memo :=
  match cell with
  | some n => ⟨(n, field, t) :: m.entries⟩
  | none => m

/-- Asks a provider for a field: the answer, the memo afterwards, and the calls made. -/
def get (m : Memo) (p : Provider Ty) (field : Bytes) : Option Ty × Memo × List Call :=
  match m.find? p.cell field with
  | some t => (some t, m, [])
  | none =>
    match NameMap.find? p.resolvers field with
    | none => (none, m, [])
    | some (.bound t) => (some t, m.remember p.cell field t, [])
    | some (.host none) => (none, m, [⟨p.identity, field⟩])
    | some (.host (some t)) => (some t, m.remember p.cell field t, [⟨p.identity, field⟩])

/-- The memo after some demands, and the calls they led to. -/
def replay (m : Memo) : List Demand → Memo × List Call
  | [] => (m, [])
  | d :: rest =>
    let (_, m, calls) := m.get d.provider d.field
    let (m, more) := m.replay rest
    (m, calls ++ more)

end Memo

/-! ## Cells -/

/-- A provider with its own cell, the given one if it has none yet, and the next free cell. -/
def Provider.settle {α : Type} (p : Provider α) (next : Nat) : Provider α × Nat :=
  match p.cell with
  | some _ => (p, next)
  | none => ({ p with cell := some next }, next + 1)

mutual

/-- Gives a cell to every provider in a type that has none, from the next free cell on. -/
def Ty.settle : Ty → Nat → Ty × Nat
  | .node (.choices choice fields) token sources, next =>
    let (fields, next) := settleFields fields next
    (.node (.choices choice fields) token sources, next)
  | .node (.aggregate shape optional fields) token sources, next =>
    let (fields, next) := settleFields fields next
    (.node (.aggregate shape optional fields) token sources, next)
  | .node (.lazy isTable optional (some ⟨identity, expandable, resolvers, cell⟩)) token sources, next =>
    let (resolvers, next) := settleResolvers resolvers next
    let (p, next) := Provider.settle ⟨identity, expandable, resolvers, cell⟩ next
    (.node (.lazy isTable optional (some p)) token sources, next)
  | t, next => (t, next)

/-- Settles the types of some fields. -/
def settleFields : List (Bytes × Ty) → Nat → List (Bytes × Ty) × Nat
  | [], next => ([], next)
  | (name, t) :: rest, next =>
    let (t, next) := t.settle next
    let (rest, next) := settleFields rest next
    ((name, t) :: rest, next)

/-- Settles the types that some resolvers give. -/
def settleResolvers : List (Bytes × Resolver Ty) → Nat → List (Bytes × Resolver Ty) × Nat
  | [], next => ([], next)
  | (name, .host (some t)) :: rest, next =>
    let (t, next) := t.settle next
    let (rest, next) := settleResolvers rest next
    ((name, .host (some t)) :: rest, next)
  | (name, .host none) :: rest, next =>
    let (rest, next) := settleResolvers rest next
    ((name, .host none) :: rest, next)
  | (name, .bound t) :: rest, next =>
    let (t, next) := t.settle next
    let (rest, next) := settleResolvers rest next
    ((name, .bound t) :: rest, next)

end

end FormulaTypes
