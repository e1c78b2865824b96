import PlusCalGo.Text.GraphemeExtend
import PlusCalGo.Text.Unprintable

/-!
# Quoted text

Text between quotation marks, as it stands in Go literals and in messages. The quotation mark, the
backslash and the usual blanks have short escapes; what could not be read on paper is written by its
code point.
-/

namespace PlusCalGo.Text

/-- A character by its code point in lower-case hexadecimal, without leading zeros. -/
def codePointEscape (c : Char) : List Char :=
  ['\\', 'u', '\x7b'] ++ Nat.toDigits 16 c.toNat ++ ['\x7d']

/-- Characters that cannot be told apart or found on paper when they stand alone. -/
def isInvisible (c : Char) : Bool :=
  isUnprintable c || isHangulFiller c || (isGraphemeExtend c && !isHalfwidthMark c)

/-- The characters that stand for `c` between quotation marks. -/
def escapeChar (c : Char) : List Char :=
  if c = '\x00' then ['\\', '0']
  else if c = '\t' then ['\\', 't']
  else if c = '\r' then ['\\', 'r']
  else if c = '\n' then ['\\', 'n']
  else if c = '\"' then ['\\', '\"']
  else if c = '\\' then ['\\', '\\']
  else if ' ' ≤ c ∧ c ≤ '~' then [c]
  else if isInvisible c then codePointEscape c
  else [c]

/-- The text between quotation marks, escaped. -/
def quoted (text : String) : String :=
  String.ofList ('\"' :: (text.toList.flatMap escapeChar ++ ['\"']))

end PlusCalGo.Text
