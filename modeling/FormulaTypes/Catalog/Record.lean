import FormulaTypes.Catalog.Packed
import FormulaTypes.Spec.Parser
import FormulaTypes.Spec.Printer

/-!
# Stored records

A type is stored as its text beside its sources, which the text does not tell, under a version.
-/

namespace FormulaTypes

/-- What is stored of a type. -/
structure Record where
  version : Int
  spec : Bytes
  sources : List Bytes

namespace Record

/-- The version that is written and read. -/
def currentVersion : Nat := 1

/-- The record of nothing. -/
def blank : Record := ⟨0, [], []⟩

/-- The keys of a record's map. -/
inductive Key where
  | version | spec | sources
  deriving DecidableEq

/-- The text of a key. -/
def Key.text : Key → Bytes
  | .version => Bytes.ofString "v"
  | .spec => Bytes.ofString "s"
  | .sources => Bytes.ofString "src"

/-- The key with a text. -/
def Key.ofText? (s : Bytes) : Option Key :=
  [Key.version, Key.spec, Key.sources].find? fun k => k.text = s

/-! ## Writing -/

/-- The bytes of a record with the current version. Sources are left out if there are none. -/
def pack (spec : Bytes) (sources : List Bytes) : Bytes :=
  Packed.mapHead (if sources.isEmpty then 2 else 3) ++
    (Packed.string Key.version.text ++ Packed.small currentVersion) ++
    (Packed.string Key.spec.text ++ Packed.string spec) ++
    (if sources.isEmpty then [] else Packed.string Key.sources.text ++ Packed.strings sources)

/-- The text and the bytes of a type. -/
def encode (t : Ty) : Except Spec.Unrepresentable (Bytes × Bytes) := do
  let spec ← Spec.format t
  return (spec, pack spec t.sources.members)

/-! ## Reading -/

/-- Reads the value of a key into a record. A nil for the sources changes nothing. -/
def readValue (r : Record) (s : Bytes) : Key → Option (Record × Bytes)
  | .version => (Packed.readInt s).map fun v => ({ r with version := v.1 }, v.2)
  | .spec => (Packed.readString s).map fun v => ({ r with spec := v.1 }, v.2)
  | .sources => (Packed.readStrings s).map fun v => ({ r with sources := v.1.getD r.sources }, v.2)

/-- Reads the entries of a map into a record; values of unknown keys are skipped. -/
def readEntries : Nat → Record → Bytes → Option (Record × Bytes)
  | 0, r, s => some (r, s)
  | n + 1, r, s => do
    let (key, s) ← Packed.readString s
    match Key.ofText? key with
    | some key =>
      let (r, s) ← readValue r s key
      readEntries n r s
    | none =>
      let s ← Packed.skip s
      readEntries n r s

/-- Reads a record: a map, or an array of its three values. What follows is ignored. -/
def unpack (s : Bytes) : Option Record :=
  match Packed.readMapHead s with
  | some (none, _) => some blank
  | some (some n, s) => (readEntries n blank s).map Prod.fst
  | none =>
    match Packed.readArrayHead s with
    | some (some 0, _) => some blank
    | some (some 3, s) => do
      let (r, s) ← readValue blank s .version
      let (r, s) ← readValue r s .spec
      let (r, _) ← readValue r s .sources
      return r
    | _ => none

end Record

/-! ## Errors -/

/-- Why a record is no type. -/
inductive RecordCause where
  | malformed
  | version (found : Int)
  | spec (error : Spec.ParseError)

/-- A record that is no type. -/
structure RecordError where
  name : Bytes
  cause : RecordCause

/-- The wording of a cause. -/
def RecordCause.text : RecordCause → Bytes
  | .malformed => Bytes.ofString "malformed record"
  | .version found => Bytes.ofString s!"unsupported version {found}"
  | .spec error => error.message

/-- The wording of a record error. -/
def RecordError.message (e : RecordError) : Bytes :=
  Bytes.ofString "typestore: record " ++ Text.quote e.name ++ Bytes.ofString ": " ++ e.cause.text

/-- The type that a record holds. -/
def Record.decode (name data : Bytes) : Except RecordError Ty :=
  match unpack data with
  | none => .error ⟨name, .malformed⟩
  | some r =>
    if r.version ≠ currentVersion then .error ⟨name, .version r.version⟩
    else
      match Spec.parse r.spec with
      | .ok t => .ok (t.withSources r.sources)
      | .error e => .error ⟨name, .spec e⟩

end FormulaTypes
