import FormulaTypes.Kind
import FormulaTypes.Number.Reader
import FormulaTypes.Spec.Lexeme
import FormulaTypes.Text.Quoted

/-!
# Errors in type texts

Why a text is no type, where it went wrong, and how that is worded.
-/

namespace FormulaTypes.Spec

open Number (NumberError)

/-- Why a text is no literal of a kind. -/
inductive LiteralError where
  | number (error : NumberError)
  | flag
  deriving DecidableEq

/-- Why a text is no type. -/
inductive Cause where
  | unclosedQuote
  | expectedPunct (c : UInt8) (found : Symbol)
  | expectedName (found : Symbol)
  | expectedType (found : Symbol)
  | unknownKind (text : Bytes)
  | lazyKind (kind : Kind)
  | enumKind (text : Bytes)
  | literal (kind : Kind) (text : Bytes) (error : LiteralError)
  | trailing (found : Symbol)
  deriving DecidableEq

/-- What went wrong and where. -/
structure Problem where
  offset : Nat
  cause : Cause
  deriving DecidableEq

/-- A text that is no type. -/
structure ParseError where
  input : Bytes
  offset : Nat
  cause : Cause
  deriving DecidableEq

/-- How messages name a symbol. -/
def Symbol.text : Symbol → Bytes
  | .punct c => Text.quote [c]
  | .ident name => Bytes.ofString "identifier " ++ Text.quote name
  | .unclosed | .finish => Bytes.ofString "end of input"

/-- The wording of a literal error, after the text that it is about. -/
def LiteralError.text (literal : Bytes) : LiteralError → Bytes
  | .number .malformed => Bytes.ofString "strconv.ParseFloat: parsing " ++ Text.quote literal ++
    Bytes.ofString ": invalid syntax"
  | .number .outOfRange => Bytes.ofString "strconv.ParseFloat: parsing " ++ Text.quote literal ++
    Bytes.ofString ": value out of range"
  | .flag => Bytes.ofString "strconv.ParseBool: parsing " ++ Text.quote literal ++ Bytes.ofString ": invalid syntax"

/-- The wording of a cause. -/
def Cause.text : Cause → Bytes
  | .unclosedQuote => Bytes.ofString "unterminated quoted name"
  | .expectedPunct c found =>
    Bytes.ofString "expected " ++ Text.quote [c] ++ Bytes.ofString ", found " ++ found.text
  | .expectedName found => Bytes.ofString "expected identifier, found " ++ found.text
  | .expectedType found => Bytes.ofString "expected type, found " ++ found.text
  | .unknownKind text => Bytes.ofString "unknown kind " ++ Text.quote text
  | .lazyKind kind => Bytes.ofString s!"lazy {kind.name} cannot be parsed"
  | .enumKind text => Bytes.ofString "invalid enum superkind " ++ Text.quote text
  | .literal kind text error =>
    Bytes.ofString s!"{kind.name} literal " ++ Text.quote text ++ Bytes.ofString ": " ++ error.text text
  | .trailing found => Bytes.ofString "unexpected " ++ found.text ++ Bytes.ofString " after type"

/-- The wording of a parse error. -/
def ParseError.message (e : ParseError) : Bytes :=
  Bytes.ofString "type spec " ++ Text.quote e.input ++ Bytes.ofString s!": offset {e.offset}: " ++ e.cause.text

end FormulaTypes.Spec
