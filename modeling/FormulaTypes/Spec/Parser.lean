import FormulaTypes.Ty.Build

/-!
# Reading type texts

Aggregates are written `![name:type, ...]` and `*[name:type, ...]`, enums `%k[name:literal, ...]`, and every other
kind by its letter; files and large images may have fields. The reader looks one lexeme ahead, so a name that is not
closed is found as soon as the lexeme before it is taken.
-/

namespace FormulaTypes.Spec

/-- A reader of a part of the lexemes: what was read, and the lexemes that are left. -/
abbrev Reader (α : Type) := List Lexeme → Except Problem (α × List Lexeme)

/-- The next lexeme. -/
def peek (ls : List Lexeme) : Lexeme := ls.headD ⟨.finish, 0⟩

/-- Fails at the next lexeme. -/
def failAt {α : Type} (ls : List Lexeme) (cause : Symbol → Cause) : Except Problem α :=
  .error ⟨(peek ls).offset, cause (peek ls).symbol⟩

/-- Takes the next lexeme. The one after it must not be an unclosed name. -/
def advance (ls : List Lexeme) : Except Problem (List Lexeme) :=
  match ls.tail with
  | ⟨.unclosed, offset⟩ :: _ => .error ⟨offset, .unclosedQuote⟩
  | rest => .ok rest

/-- Takes a punctuator. -/
def expect (c : UInt8) (ls : List Lexeme) : Except Problem (List Lexeme) :=
  if (peek ls).symbol = .punct c then advance ls else failAt ls (.expectedPunct c)

/-- Takes a name. -/
def readName : Reader Bytes := fun ls =>
  match (peek ls).symbol with
  | .ident name => do
    let ls ← advance ls
    return (name, ls)
  | _ => failAt ls .expectedName

/-! ## Lists -/

/-- Reads entries up to the closing bracket; the fuel bounds their number. -/
def readEntries {α : Type} (item : Reader α) : Nat → Reader (List (Bytes × α))
  | 0, ls => failAt ls .expectedName
  | fuel + 1, ls => do
    let (name, ls) ← readName ls
    let ls ← expect 58 ls
    let (value, ls) ← item ls
    if (peek ls).symbol = .punct 44 then
      let ls ← advance ls
      let (entries, ls) ← readEntries item fuel ls
      return ((name, value) :: entries, ls)
    else
      let ls ← expect 93 ls
      return ([(name, value)], ls)

/-- Reads a list of entries in brackets. -/
def readList {α : Type} (item : Reader α) : Reader (List (Bytes × α)) := fun ls => do
  let ls ← expect 91 ls
  if (peek ls).symbol = .punct 93 then
    let ls ← advance ls
    return ([], ls)
  else readEntries item ls.length ls

/-! ## Literals -/

/-- The texts of a true flag. -/
def trueTexts : List Bytes := ["1", "t", "T", "TRUE", "true", "True"].map Bytes.ofString

/-- The texts of a false flag. -/
def falseTexts : List Bytes := ["0", "f", "F", "FALSE", "false", "False"].map Bytes.ofString

/-- The literal of a kind that a text stands for. -/
def literalOf (kind : Kind) (text : Bytes) : Except LiteralError Literal :=
  if kind.isNumeric then
    match Number.Double.read text with
    | .ok value => .ok (.number value)
    | .error e => .error (.number e)
  else if kind = .boolean then
    if trueTexts.contains text then .ok (.flag true)
    else if falseTexts.contains text then .ok (.flag false)
    else .error .flag
  else .ok (.text text)

/-- Reads a literal of a kind. -/
def readLiteral (kind : Kind) : Reader Literal := fun ls => do
  let (text, rest) ← readName ls
  match literalOf kind text with
  | .ok literal => return (literal, rest)
  | .error e => .error ⟨(peek ls).offset, .literal kind text e⟩

/-! ## Types -/

/-- Reads the fields of an aggregate. -/
def readFields (item : Reader Ty) (shape : Shape) : Reader Ty := fun ls => do
  let (entries, ls) ← readList item ls
  return (Ty.ofForm (.aggregate shape false (NameMap.ofList entries)), ls)

/-- Reads an enum after its mark. -/
def readEnum : Reader Ty := fun ls => do
  let (text, rest) ← readName ls
  match (Kind.ofLetter? text).filter Kind.isPrimitive with
  | some superkind =>
    let (entries, rest) ← readList (readLiteral superkind) rest
    return (Ty.ofForm (.enum superkind (.ofList entries)), rest)
  | none => .error ⟨(peek ls).offset, .enumKind text⟩

/-- Reads a type that starts with the letter of its kind. -/
def readLettered (item : Reader Ty) (text : Bytes) : Reader Ty := fun ls =>
  match Kind.ofLetter? text with
  | none | some .record | some .table | some .enum => failAt ls fun _ => .unknownKind text
  | some .lazyRecord => failAt ls fun _ => .lazyKind .lazyRecord
  | some .lazyTable => failAt ls fun _ => .lazyKind .lazyTable
  | some k => do
    let ls ← advance ls
    match k, decide ((peek ls).symbol = .punct 91) with
    | .file, true => readFields item .file ls
    | .largeImage, true => readFields item .largeImage ls
    | k, _ =>
      match Ty.plainForm? k with
      | some form => return (Ty.ofForm form, ls)
      | none => failAt ls fun _ => .unknownKind text

/-- Reads a type; the fuel bounds its depth. -/
def readType : Nat → Reader Ty
  | 0, ls => failAt ls .expectedType
  | fuel + 1, ls =>
    match (peek ls).symbol with
    | .punct 33 => do readFields (readType fuel) .record (← advance ls)
    | .punct 42 => do readFields (readType fuel) .table (← advance ls)
    | .punct 37 => do readEnum (← advance ls)
    | .ident text => readLettered (readType fuel) text ls
    | _ => failAt ls .expectedType

/-- Reads lexemes that are a type and nothing else. -/
def readAll (ls : List Lexeme) : Except Problem Ty := do
  if (peek ls).symbol = .unclosed then failAt ls fun _ => .unclosedQuote
  let (t, rest) ← readType ls.length ls
  if (peek rest).symbol = .finish then return t else failAt rest .trailing

/-- The type that a text stands for. -/
def parse (s : Bytes) : Except ParseError Ty :=
  match readAll (lexemes s) with
  | .ok t => .ok t
  | .error problem => .error ⟨s, problem.offset, problem.cause⟩

/-- The type that a text stands for; a text that stands for none is a fault. -/
def demand (s : Bytes) : Except Fault Ty :=
  match parse s with
  | .ok t => .ok t
  | .error e => .error (.badText e)

end FormulaTypes.Spec
