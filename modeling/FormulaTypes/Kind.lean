import FormulaTypes.Bytes

/-!
# Kinds

The kinds of types of the formula language: their numbers, names and letters, the families they fall into, and the
hierarchy of superkinds, which ends in `error`.
-/

namespace FormulaTypes

/-- The kind of a type. `invalid` is the kind of no type; the numbers past the table are kinds of no type either. -/
inductive Kind where
  | invalid | unknown | error | record | table | lazyRecord | lazyTable | boolean | number | decimal | currency
  | string | hyperlink | date | time | dateTime | dateTimeNoTimeZone | guid | color | image | penImage | media | blob
  | enum | objNull | deferred | void | untypedObject | dataEntity | metadata | optionSet | optionSetValue
  | polymorphic | view | viewValue | namedValue | control | file | largeImage
  | beyond (excess : Nat)
  deriving DecidableEq, Repr

namespace Kind

/-- The kinds of the table, in the order of their numbers. -/
def listed : List Kind :=
  [.invalid, .unknown, .error, .record, .table, .lazyRecord, .lazyTable, .boolean, .number, .decimal, .currency,
   .string, .hyperlink, .date, .time, .dateTime, .dateTimeNoTimeZone, .guid, .color, .image, .penImage, .media,
   .blob, .enum, .objNull, .deferred, .void, .untypedObject, .dataEntity, .metadata, .optionSet, .optionSetValue,
   .polymorphic, .view, .viewValue, .namedValue, .control, .file, .largeImage]

/-- The number of a kind. -/
def index : Kind → Nat
  | .invalid => 0
  | .unknown => 1
  | .error => 2
  | .record => 3
  | .table => 4
  | .lazyRecord => 5
  | .lazyTable => 6
  | .boolean => 7
  | .number => 8
  | .decimal => 9
  | .currency => 10
  | .string => 11
  | .hyperlink => 12
  | .date => 13
  | .time => 14
  | .dateTime => 15
  | .dateTimeNoTimeZone => 16
  | .guid => 17
  | .color => 18
  | .image => 19
  | .penImage => 20
  | .media => 21
  | .blob => 22
  | .enum => 23
  | .objNull => 24
  | .deferred => 25
  | .void => 26
  | .untypedObject => 27
  | .dataEntity => 28
  | .metadata => 29
  | .optionSet => 30
  | .optionSetValue => 31
  | .polymorphic => 32
  | .view => 33
  | .viewValue => 34
  | .namedValue => 35
  | .control => 36
  | .file => 37
  | .largeImage => 38
  | .beyond excess => 39 + excess

/-- The kind with a number. -/
def ofIndex (n : Nat) : Kind := (listed[n]?).getD (.beyond (n - 39))

theorem ofIndex_index (k : Kind) : ofIndex k.index = k := by
  cases k <;> simp [index, ofIndex, listed]

/-- A kind is known by its number. -/
theorem index_inj {a b : Kind} : a.index = b.index ↔ a = b :=
  ⟨fun h => by rw [← ofIndex_index a, h, ofIndex_index], fun h => by rw [h]⟩

/-- The name of a kind. -/
def name : Kind → String
  | .invalid => "Invalid"
  | .unknown => "Unknown"
  | .error => "Error"
  | .record => "Record"
  | .table => "Table"
  | .lazyRecord => "LazyRecord"
  | .lazyTable => "LazyTable"
  | .boolean => "Boolean"
  | .number => "Number"
  | .decimal => "Decimal"
  | .currency => "Currency"
  | .string => "String"
  | .hyperlink => "Hyperlink"
  | .date => "Date"
  | .time => "Time"
  | .dateTime => "DateTime"
  | .dateTimeNoTimeZone => "DateTimeNoTimeZone"
  | .guid => "Guid"
  | .color => "Color"
  | .image => "Image"
  | .penImage => "PenImage"
  | .media => "Media"
  | .blob => "Blob"
  | .enum => "Enum"
  | .objNull => "ObjNull"
  | .deferred => "Deferred"
  | .void => "Void"
  | .untypedObject => "UntypedObject"
  | .dataEntity => "DataEntity"
  | .metadata => "Metadata"
  | .optionSet => "OptionSet"
  | .optionSetValue => "OptionSetValue"
  | .polymorphic => "Polymorphic"
  | .view => "View"
  | .viewValue => "ViewValue"
  | .namedValue => "NamedValue"
  | .control => "Control"
  | .file => "File"
  | .largeImage => "LargeImage"
  | .beyond excess => s!"Kind({39 + excess})"

/-- The letter of a kind in type texts, 0 for a kind that has none. -/
def letter : Kind → UInt8
  | .unknown => 63
  | .error => 101
  | .record => 33
  | .table => 42
  | .lazyRecord => 114
  | .lazyTable => 82
  | .boolean => 98
  | .number => 110
  | .decimal => 119
  | .currency => 36
  | .string => 115
  | .hyperlink => 104
  | .date => 68
  | .time => 84
  | .dateTime => 100
  | .dateTimeNoTimeZone => 90
  | .guid => 103
  | .color => 99
  | .image => 105
  | .penImage => 112
  | .media => 109
  | .blob => 111
  | .enum => 37
  | .objNull => 78
  | .deferred => 88
  | .void => 45
  | .untypedObject => 79
  | .dataEntity => 69
  | .metadata => 65
  | .optionSet => 76
  | .optionSetValue => 108
  | .polymorphic => 80
  | .view => 89
  | .viewValue => 121
  | .namedValue => 86
  | .control => 67
  | .file => 70
  | .largeImage => 77
  | .invalid | .beyond _ => 0

/-! ## Families -/

/-- Kinds that a type can have. -/
def isValid : Kind → Bool
  | .invalid | .beyond _ => false
  | _ => true

/-- Plain values. -/
def isPrimitive : Kind → Bool
  | .boolean | .number | .decimal | .currency | .string | .hyperlink | .date | .time | .dateTime
  | .dateTimeNoTimeZone | .guid | .color | .image | .penImage | .media | .blob => true
  | _ => false

/-- Records and tables, whether their fields are at hand or resolved on demand. -/
def isAggregate : Kind → Bool
  | .record | .table | .lazyRecord | .lazyTable | .file | .largeImage => true
  | _ => false

/-- Aggregates whose fields are resolved on demand. -/
def isLazy : Kind → Bool
  | .lazyRecord | .lazyTable => true
  | _ => false

/-- Kinds whose types may carry a field map. -/
def hasFields : Kind → Bool
  | .record | .table | .file | .largeImage | .optionSet | .view => true
  | _ => false

/-- Kinds that stand for something of the host, told apart by tokens. -/
def isOpaque : Kind → Bool
  | .dataEntity | .metadata | .optionSet | .optionSetValue | .polymorphic | .view | .viewValue | .namedValue
  | .control => true
  | _ => false

/-- Dates and times. -/
def isDateTime : Kind → Bool
  | .date | .time | .dateTime | .dateTimeNoTimeZone => true
  | _ => false

/-- Numbers. -/
def isNumeric : Kind → Bool
  | .number | .decimal | .currency => true
  | _ => false

/-- Kinds whose types carry at most a token: no fields, no literals, no provider. -/
def isLeaf : Kind → Bool
  | .record | .table | .file | .largeImage | .lazyRecord | .lazyTable | .enum | .optionSet | .view => false
  | _ => true

/-! ## The hierarchy -/

/-- The nearest superkind. `error` is at the top. -/
def superkind? : Kind → Option Kind
  | .currency => some .number
  | .hyperlink | .guid => some .string
  | .image | .media | .blob => some .hyperlink
  | .penImage => some .image
  | .date | .time | .dateTimeNoTimeZone => some .dateTime
  | .record | .table | .lazyRecord | .lazyTable | .file | .largeImage | .boolean | .number | .decimal | .string
  | .dateTime | .color | .untypedObject | .dataEntity | .metadata | .optionSet | .optionSetValue | .polymorphic
  | .view | .viewValue | .namedValue | .control => some .error
  | .invalid | .unknown | .error | .enum | .objNull | .deferred | .void | .beyond _ => none

/-- The first `steps` superkinds above a kind. -/
def climb : Nat → Kind → List Kind
  | 0, _ => []
  | steps + 1, k =>
    match k.superkind? with
    | none => []
    | some s => s :: climb steps s

/-- The superkinds above a kind, nearest first. No kind is more than four steps below the top. -/
def ancestors (k : Kind) : List Kind := climb 4 k

theorem ancestors_eq (k : Kind) :
    k.ancestors = match k.superkind? with
      | none => []
      | some s => s :: s.ancestors := by
  cases k <;> rfl

/-- Whether `base` is strictly above `k`. -/
def isAbove (base k : Kind) : Bool := k.ancestors.contains base

/-- The nearest kind at or above `a` that is at or above `b`, `error` if there is none. -/
def join (a b : Kind) : Kind :=
  ((a :: a.ancestors).find? fun k => k = b || k.isAbove b).getD .error

/-! ## Letters -/

/-- The kind that a letter stands for. -/
def ofLetter? (text : Bytes) : Option Kind :=
  listed.find? fun k => k.isValid && text = [k.letter]

theorem ofLetter?_letter (k : Kind) (h : k.isValid = true) : ofLetter? [k.letter] = some k := by
  cases k with
  | invalid | beyond => simp [isValid] at h
  | _ => rfl

end Kind

end FormulaTypes
