import PlusCalGo.Found
import PlusCalGo.Text.Utf8

/-!
# Faults of JSON text

Why a text is no JSON, or not the value that was wanted, and at which line and column.
-/

namespace PlusCalGo.Json

open Text (byteLength)

inductive Cause where
  | endInList
  | endInObject
  | endInString
  | endInValue
  | expectedColon
  | expectedCommaOrBracket
  | expectedCommaOrBrace
  | expectedIdent
  | expectedValue
  | invalidEscape
  | invalidNumber
  | numberOutOfRange
  | controlCharacter
  | keyNotString
  | loneSurrogate
  | trailingComma
  | trailingCharacters
  | unpairedSurrogate
  | nestedTooDeep
  | invalidType (found : Found) (wanted : String)
  | invalidValue (found : Found) (wanted : String)
  | invalidLength (length : Nat) (wanted : String)
  | missingField (name : String)
  | duplicateField (name : String)
  | unknownVariant (name : String) (known : List String)
deriving DecidableEq, Inhabited

def Cause.text : Cause → String
  | endInList => "EOF while parsing a list"
  | endInObject => "EOF while parsing an object"
  | endInString => "EOF while parsing a string"
  | endInValue => "EOF while parsing a value"
  | expectedColon => "expected `:`"
  | expectedCommaOrBracket => "expected `,` or `]`"
  | expectedCommaOrBrace => "expected `,` or `\x7d`"
  | expectedIdent => "expected ident"
  | expectedValue => "expected value"
  | invalidEscape => "invalid escape"
  | invalidNumber => "invalid number"
  | numberOutOfRange => "number out of range"
  | controlCharacter => "control character (\\u0000-\\u001F) found while parsing a string"
  | keyNotString => "key must be a string"
  | loneSurrogate => "lone leading surrogate in hex escape"
  | trailingComma => "trailing comma"
  | trailingCharacters => "trailing characters"
  | unpairedSurrogate => "unexpected end of hex escape"
  | nestedTooDeep => "recursion limit exceeded"
  | invalidType found wanted => "invalid type: " ++ found.text ++ ", expected " ++ wanted
  | invalidValue found wanted => "invalid value: " ++ found.text ++ ", expected " ++ wanted
  | invalidLength length wanted => "invalid length " ++ Nat.repr length ++ ", expected " ++ wanted
  | missingField name => "missing field `" ++ name ++ "`"
  | duplicateField name => "duplicate field `" ++ name ++ "`"
  | unknownVariant name known => "unknown variant `" ++ name ++ "`, expected " ++ oneOf known

/-- A cause and its place: lines are counted from one, the column is the number of bytes read on
the line. -/
structure Fault where
  cause : Cause
  line : Nat
  column : Nat
deriving DecidableEq, Inhabited

def Fault.text (fault : Fault) : String :=
  fault.cause.text ++ " at line " ++ Nat.repr fault.line ++ " column " ++ Nat.repr fault.column

/-- The fault at the place where `left` bytes of the text have not been read. -/
def Fault.place (text : List Char) (cause : Cause) (left : Nat) : Fault :=
  let (line, column, _) := text.foldl (fun (line, column, todo) c =>
    if todo = 0 then (line, column, 0)
    else if c = '\n' then (line + 1, 0, todo - 1)
    else (line, column + min c.utf8Size todo, todo - c.utf8Size)) (1, 0, byteLength text - left)
  ⟨cause, line, column⟩

end PlusCalGo.Json
