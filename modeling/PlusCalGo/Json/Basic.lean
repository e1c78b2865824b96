/-!
# JSON values

JSON values with members in order, and their two written forms: on one line and indented.
-/

namespace PlusCalGo

inductive Json where
  | null
  | bool (value : Bool)
  | integer (value : Int)
  | string (value : String)
  | array (elements : List Json)
  | object (members : List (String × Json))
deriving Inhabited

namespace Json

/-- A digit of a four-digit hexadecimal escape. -/
def hexDigit (n : Nat) : Char := (Nat.toDigits 16 n).headD '0'

/-- The characters that stand for `c` between quotation marks. -/
def escapeChar (c : Char) : List Char :=
  if c = '\"' then ['\\', '\"']
  else if c = '\\' then ['\\', '\\']
  else if c = '\x08' then ['\\', 'b']
  else if c = '\x0c' then ['\\', 'f']
  else if c = '\n' then ['\\', 'n']
  else if c = '\r' then ['\\', 'r']
  else if c = '\t' then ['\\', 't']
  else if c.toNat < 32 then
    ['\\', 'u', '0', '0', hexDigit (c.toNat / 16), hexDigit (c.toNat % 16)]
  else [c]

def writeString (text : String) : List Char :=
  '\"' :: (text.toList.flatMap escapeChar ++ ['\"'])

def writeInteger (n : Int) : List Char :=
  if n < 0 then '-' :: Nat.toDigits 10 n.natAbs else Nat.toDigits 10 n.natAbs

mutual

/-- The value on one line, without blanks. -/
def write : Json → List Char
  | null => ['n', 'u', 'l', 'l']
  | bool true => ['t', 'r', 'u', 'e']
  | bool false => ['f', 'a', 'l', 's', 'e']
  | integer n => writeInteger n
  | string text => writeString text
  | array [] => ['[', ']']
  | array (element :: rest) => '[' :: (write element ++ writeElements rest)
  | object [] => ['\x7b', '\x7d']
  | object ((name, value) :: rest) =>
    '\x7b' :: (writeString name ++ ':' :: (write value ++ writeMembers rest))

def writeElements : List Json → List Char
  | [] => [']']
  | element :: rest => ',' :: (write element ++ writeElements rest)

def writeMembers : List (String × Json) → List Char
  | [] => ['\x7d']
  | (name, value) :: rest =>
    ',' :: (writeString name ++ ':' :: (write value ++ writeMembers rest))

end

def compact (value : Json) : String := String.ofList value.write

def newline (indent : Nat) : List Char := '\n' :: List.replicate (2 * indent) ' '

mutual

/-- The value over several lines, two blanks deeper for each open bracket. -/
def writeIndented (indent : Nat) : Json → List Char
  | array (element :: rest) =>
    '[' :: (newline (indent + 1) ++ writeIndented (indent + 1) element ++
      writeIndentedElements indent rest)
  | object ((name, value) :: rest) =>
    '\x7b' :: (newline (indent + 1) ++ writeString name ++ ':' :: ' ' ::
      (writeIndented (indent + 1) value ++ writeIndentedMembers indent rest))
  | array [] => ['[', ']']
  | object [] => ['\x7b', '\x7d']
  | null => ['n', 'u', 'l', 'l']
  | bool true => ['t', 'r', 'u', 'e']
  | bool false => ['f', 'a', 'l', 's', 'e']
  | integer n => writeInteger n
  | string text => writeString text

def writeIndentedElements (indent : Nat) : List Json → List Char
  | [] => newline indent ++ [']']
  | element :: rest =>
    ',' :: (newline (indent + 1) ++ writeIndented (indent + 1) element ++
      writeIndentedElements indent rest)

def writeIndentedMembers (indent : Nat) : List (String × Json) → List Char
  | [] => newline indent ++ ['\x7d']
  | (name, value) :: rest =>
    ',' :: (newline (indent + 1) ++ writeString name ++ ':' :: ' ' ::
      (writeIndented (indent + 1) value ++ writeIndentedMembers indent rest))

end

def indented (value : Json) : String := String.ofList (value.writeIndented 0)

end Json

end PlusCalGo
