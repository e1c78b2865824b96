import PlusCalGo.Found
import PlusCalGo.Text.Utf8
import PlusCalGo.Toml.Basic

/-!
# Faults of TOML documents

What is wrong with the contents of a document, shown under the line where it stands.
-/

namespace PlusCalGo.Toml

open Text (byteLength)

inductive Cause where
  | invalidType (found : Found) (wanted : String)
  | invalidValue (found : Found) (wanted : String)
  | unknownField (name : String) (known : List String)
  | unknownVariant (name : String) (known : List String)
  | noChoice
  | emptyChoice
  | severalChoices
  | choiceContent (found : String)
  | choiceArray
  | choiceTable
  | integerOverflow
  | floatOverflow
deriving DecidableEq, Inhabited

def Cause.text : Cause → String
  | invalidType found wanted => "invalid type: " ++ found.text ++ ", expected " ++ wanted
  | invalidValue found wanted => "invalid value: " ++ found.text ++ ", expected " ++ wanted
  | unknownField name known => "unknown field `" ++ name ++ "`, expected " ++ oneOf known
  | unknownVariant name known => "unknown variant `" ++ name ++ "`, expected " ++ oneOf known
  | noChoice => "wanted string or table"
  | emptyChoice => "wanted exactly 1 element, found 0 elements"
  | severalChoices => "wanted exactly 1 element, more than 1 element"
  | choiceContent found => "expected table, found " ++ found
  | choiceArray => "expected empty array"
  | choiceTable => "expected empty table"
  | integerOverflow => "integer number overflowed"
  | floatOverflow => "floating-point number overflowed"

/-- A key or value that is not the wanted one. -/
structure Mismatch where
  span : Span
  cause : Cause
deriving DecidableEq, Inhabited

/-- A mismatch with its line, both counted from zero, and the number of marks below it. -/
structure Fault where
  line : Nat
  column : Nat
  content : String
  width : Nat
  cause : Cause
deriving DecidableEq, Inhabited

/-- The characters that start before a byte, and the others. -/
def splitBytes (count : Nat) : List Char → List Char × List Char
  | [] => ([], [])
  | c :: rest =>
    if count = 0 then ([], c :: rest)
    else
      let (before, after) := splitBytes (count - c.utf8Size) rest
      (c :: before, after)

/-- Finds the line of a mismatch in its document. The marks stay inside of the line. -/
def Fault.ofMismatch (text : String) (mismatch : Mismatch) : Fault :=
  let (before, after) := splitBytes mismatch.span.start text.toList
  let lineBefore := (before.reverse.takeWhile (· ≠ '\n')).reverse
  let content := lineBefore ++ after.takeWhile (· ≠ '\n')
  let column := lineBefore.length
  { line := before.count '\n'
    column := column
    content := String.ofList content
    width := min (mismatch.span.stop - mismatch.span.start) (byteLength content - column)
    cause := mismatch.cause }

private def blanks (count : Nat) : String := String.ofList (List.replicate count ' ')

def Fault.text (fault : Fault) : String :=
  let number := Nat.repr (fault.line + 1)
  let gutter := blanks (number.length + 1)
  "TOML parse error at line " ++ number ++ ", column " ++ Nat.repr (fault.column + 1) ++ "\n" ++
    gutter ++ "|\n" ++ number ++ " | " ++ fault.content ++ "\n" ++
    gutter ++ "|" ++ blanks (fault.column + 1) ++
    String.ofList (List.replicate (max 1 fault.width) '^') ++ "\n" ++ fault.cause.text ++ "\n"

end PlusCalGo.Toml
