import FormulaTypes.Catalog.Record

/-!
# The catalog

A catalog keeps named types in a file, as records ordered by name. It is opened for writing or only for reading;
writing and reading fail when it is closed. What it did is told in log entries.
-/

namespace FormulaTypes

/-- What a catalog file is. -/
inductive CatalogFile where
  /-- There is no file yet. -/
  | missing
  /-- The file is no catalog. -/
  | garbage
  /-- The records by name, if there is a place for them at all. -/
  | database (records : Option (OrderedMap Bytes))

/-- An opening of the file. -/
structure CatalogHandle where
  readOnly : Bool
  isOpen : Bool

/-- A catalog file and its opening. -/
structure Catalog where
  file : CatalogFile
  handle : CatalogHandle

/-- What a catalog tells of its work. -/
inductive CatalogLog where
  | put (name spec : Bytes)
  | delete (name : Bytes)
  | skipped (name : Bytes) (error : RecordError)

/-- Why an operation of a catalog failed. -/
inductive CatalogCause where
  | notFound
  | unrepresentable (error : Spec.Unrepresentable)
  | record (error : RecordError)
  | keyRequired
  | keyTooLarge
  | valueTooLarge
  | readOnly
  | notOpen

/-- The operations whose errors name them. -/
inductive CatalogOperation where
  | put (name : Bytes)
  | get (name : Bytes)
  | delete (name : Bytes)
  | names
  | all

/-- A failed operation; raw writes do not name themselves. -/
structure CatalogError where
  operation : Option CatalogOperation
  cause : CatalogCause

/-- The wording of a cause. -/
def CatalogCause.text : CatalogCause → Bytes
  | .notFound => Bytes.ofString "typestore: type not found"
  | .unrepresentable error => error.message
  | .record error => error.message
  | .keyRequired => Bytes.ofString "key required"
  | .keyTooLarge => Bytes.ofString "key too large"
  | .valueTooLarge => Bytes.ofString "value too large"
  | .readOnly => Bytes.ofString "database is in read-only mode"
  | .notOpen => Bytes.ofString "database not open"

/-- The name of an operation in messages. -/
def CatalogOperation.text : CatalogOperation → Bytes
  | .put name => Bytes.ofString "typestore: put " ++ name
  | .get name => Bytes.ofString "typestore: get " ++ name
  | .delete name => Bytes.ofString "typestore: delete " ++ name
  | .names => Bytes.ofString "typestore: names"
  | .all => Bytes.ofString "typestore: all"

/-- The wording of an error. -/
def CatalogError.message (e : CatalogError) : Bytes :=
  match e.operation with
  | some operation => operation.text ++ Bytes.ofString ": " ++ e.cause.text
  | none => e.cause.text

/-- The longest name of a record, in bytes. -/
def maxKeySize : Nat := 32768

/-- The longest record, in bytes. -/
def maxValueSize : Nat := 2147483646

namespace CatalogFile

/-- Opens a file. Only an opening for writing makes a new file and a place for records. -/
def openFile? (file : CatalogFile) (readOnly : Bool) : Option CatalogFile :=
  match file, readOnly with
  | .garbage, _ | .missing, true => none
  | .missing, false | .database none, false => some (.database (some .empty))
  | .database records, _ => some (.database records)

/-- The records of a file. -/
def toRecords : CatalogFile → OrderedMap Bytes
  | .database (some records) => records
  | _ => .empty

end CatalogFile

namespace Catalog

/-- Opens a file. -/
def open? (file : CatalogFile) (readOnly : Bool) : Option Catalog :=
  (file.openFile? readOnly).map fun file => ⟨file, ⟨readOnly, true⟩⟩

/-- Closes the file. -/
def close (c : Catalog) : Catalog := { c with handle := { c.handle with isOpen := false } }

/-- The records, for reading. -/
def reading (c : Catalog) : Except CatalogCause (OrderedMap Bytes) :=
  if c.handle.isOpen then .ok c.file.toRecords else .error .notOpen

/-- The records, for writing. -/
def writing (c : Catalog) : Except CatalogCause (OrderedMap Bytes) :=
  if c.handle.readOnly then .error .readOnly else c.reading

/-- The catalog with other records. -/
def withRecords (c : Catalog) (records : OrderedMap Bytes) : Catalog := { c with file := .database (some records) }

/-- Writes a record under a name. -/
def store (c : Catalog) (name data : Bytes) : Except CatalogCause Catalog := do
  let records ← c.writing
  if name.isEmpty then .error .keyRequired
  else if maxKeySize < name.length then .error .keyTooLarge
  else if maxValueSize < data.length then .error .valueTooLarge
  else return c.withRecords (records.insert name data)

/-- Names the operation that failed. -/
def named {α : Type} (operation : CatalogOperation) (x : Except CatalogCause α) : Except CatalogError α :=
  x.mapError (⟨some operation, ·⟩)

/-- Writes bytes under a name as they are. -/
def putRaw (c : Catalog) (name data : Bytes) : Except CatalogError Catalog :=
  (c.store name data).mapError (⟨none, ·⟩)

/-- Stores a type under a name, in place of what was there. -/
def put (c : Catalog) (name : Bytes) (t : Ty) : Except CatalogError (Catalog × List CatalogLog) :=
  named (.put name) <| do
    let (spec, data) ← (Record.encode t).mapError .unrepresentable
    let c ← c.store name data
    return (c, [.put name spec])

/-- The type stored under a name. -/
def get (c : Catalog) (name : Bytes) : Except CatalogError Ty :=
  named (.get name) <| do
    let records ← c.reading
    match records.find? name with
    | some data => (Record.decode name data).mapError .record
    | none => .error .notFound

/-- Removes the type stored under a name. -/
def delete (c : Catalog) (name : Bytes) : Except CatalogError (Catalog × List CatalogLog) :=
  named (.delete name) <| do
    let records ← c.writing
    if records.contains name then return (c.withRecords (records.erase name), [.delete name])
    else .error .notFound

/-- The names that something is stored under, in order. -/
def names (c : Catalog) : Except CatalogError (List Bytes) :=
  named .names <| do
    let records ← c.reading
    return records.names

/-- All stored types by name, in order. Records that are no types are skipped and told of. -/
def all (c : Catalog) : Except CatalogError (List (Bytes × Ty) × List CatalogLog) :=
  named .all <| do
    let records ← c.reading
    let decoded := records.entries.map fun e => (e.1, Record.decode e.1 e.2)
    let types := decoded.filterMap fun e => e.2.toOption.map (e.1, ·)
    let logs := decoded.filterMap fun e =>
      match e.2 with
      | .ok _ => none
      | .error error => some (.skipped e.1 error)
    return (types, logs)

end Catalog

end FormulaTypes
