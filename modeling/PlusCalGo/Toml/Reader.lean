import PlusCalGo.Text.Utf8
import PlusCalGo.Toml.Quotation

/-!
# Reading TOML

The members of a document, or nothing for a text that is no TOML.
-/

namespace PlusCalGo.Toml

open Text (byteLength)

/-- The rest of the text and the number of bytes in front of it. -/
structure Cursor where
  offset : Nat
  rest : List Char

abbrev Reader := StateT Cursor Option

namespace Reader

def peek : Reader (Option Char) := do pure (← get).rest.head?

def offset : Reader Nat := do pure (← get).offset

/-- Takes some characters off the rest. -/
def advance (count : Nat) : Reader (List Char) := do
  let cursor ← get
  let taken := cursor.rest.take count
  set (⟨cursor.offset + byteLength taken, cursor.rest.drop count⟩ : Cursor)
  pure taken

def takeWhile (accept : Char → Bool) : Reader (List Char) := do
  advance ((← get).rest.takeWhile accept).length

def blanks : Reader Unit := do discard (takeWhile isBlank)

/-- Takes a character if it is the next one. -/
def accept (c : Char) : Reader Bool := do
  if (← peek) = some c then do discard (advance 1); pure true else pure false

def expect (c : Char) : Reader Unit := do if !(← accept c) then failure

/-- A comment, if there is one. -/
def comment : Reader Unit := do
  if ← accept '#' then
    discard (takeWhile fun c => !isControl c)

/-- The end of a line or of the text. -/
def lineEnd : Reader Unit := do
  let rest := (← get).rest
  if rest.isEmpty then pure ()
  else if lineEndLength rest = 0 then failure
  else discard (advance (lineEndLength rest))

/-- Blanks, line ends and comments. There are no more of them than `fuel`. -/
def gap : Nat → Reader Unit
  | 0 => pure ()
  | fuel + 1 => do
    discard (advance (gapLength (← get).rest))
    if (← peek) = some '#' then do
      comment
      lineEnd
      gap fuel

def anyGap : Reader Unit := do gap ((← get).rest.length + 1)

/-! ## Keys -/

def isBareKey (c : Char) : Bool :=
  isDigit c || ('a' ≤ c && c ≤ 'z') || ('A' ≤ c && c ≤ 'Z') || c = '_' || c = '-'

/-- A string in quotation marks. -/
def quoted (mark : Char) : Reader String := do
  let cursor ← get
  let (text, rest) ← (quotation mark cursor.rest : Option (String × List Char))
  set (⟨cursor.offset + (byteLength cursor.rest - byteLength rest), rest⟩ : Cursor)
  pure text

/-- One part of a key. Strings of three marks are no keys. -/
def simpleKey : Reader Key := do
  let start ← offset
  let name ← match ← peek with
    | some c =>
      if c = '\"' ∨ c = '\'' then do
        if (← get).rest.take 3 = [c, c, c] then failure
        quoted c
      else do
        let name ← takeWhile isBareKey
        if name.isEmpty then failure
        pure (String.ofList name)
    | none => failure
  pure ⟨name, ⟨start, ← offset⟩⟩

/-- The parts of a key in front of the last one, and the last one. -/
def dottedKey : Nat → Reader (List Key × Key)
  | 0 => failure
  | fuel + 1 => do
    blanks
    let key ← simpleKey
    blanks
    if ← accept '.' then do
      let (path, last) ← dottedKey fuel
      pure (key :: path, last)
    else pure ([], key)

/-- The number of brackets that can be open at once, and of dots in a key. -/
def nestingLimit : Nat := 80

def key : Reader (List Key × Key) := dottedKey nestingLimit

/-! ## Values -/

/-- Characters that end a word. -/
def endsWord (c : Char) : Bool :=
  isBlank c || c ∈ ['\n', '\r', ',', '[', ']', '\x7b', '\x7d', '#', '=']

/-- A word without quotation marks. A blank may stand between a date and a time. -/
def word : Reader (List Char) := do
  let first ← takeWhile fun c => !endsWord c
  match (← get).rest with
  | ' ' :: c :: _ =>
    if afterDate? first = some [] ∧ isDigit c then do
      let blank ← advance 1
      pure (first ++ blank ++ (← takeWhile fun c => !endsWord c))
    else pure first
  | _ => pure first

def scalar : Reader Value := do
  let start ← offset
  let content ← match ← peek with
    | some c =>
      if c = '\"' ∨ c = '\'' then do pure (Scalar.string (← quoted c))
      else do
        let word ← word
        (scalar? word : Option Scalar)
    | none => failure
  pure (.scalar ⟨start, ← offset⟩ content)

/-- The elements of an array up to its closing bracket. -/
def elements (value : Reader Value) : Nat → Reader (List Value)
  | 0 => failure
  | fuel + 1 => do
    anyGap
    if ← accept ']' then pure []
    else do
      let element ← value
      anyGap
      if ← accept ',' then do pure (element :: (← elements value fuel))
      else do
        expect ']'
        pure [element]

def array (value : Reader Value) : Reader Value := do
  let start ← offset
  expect '['
  let elements ← elements value ((← get).rest.length + 1)
  pure (.array ⟨start, ← offset⟩ elements)

/-- A key and its value, with what may stand on both sides of the equals sign. -/
def assignment (space : Reader Unit) (value : Reader Value) :
    Reader (List Key × Key × Value) := do
  let (path, key) ← key
  space
  expect '='
  space
  pure (path, key, ← value)

/-- The members of an inline table up to its closing brace, after those in `members`. -/
def inlineMembers (value : Reader Value) : Nat → Members → Reader Members
  | 0, _ => failure
  | fuel + 1, members => do
    anyGap
    if ← accept '\x7d' then pure members
    else do
      let (path, key, found) ← assignment anyGap value
      let members ← (Members.insertDotted path key found .inline members : Option Members)
      anyGap
      if ← accept ',' then inlineMembers value fuel members
      else do
        expect '\x7d'
        pure members

def inlineTable (value : Reader Value) : Reader Value := do
  let start ← offset
  expect '\x7b'
  let members ← inlineMembers value ((← get).rest.length + 1) []
  pure (.table ⟨start, ← offset⟩ .inline members)

/-- A value with at most `depth` brackets open at once. -/
def value : Nat → Reader Value
  | 0 => scalar
  | depth + 1 => do
    match ← peek with
    | some '[' => array (value depth)
    | some '\x7b' => inlineTable (value depth)
    | _ => scalar

/-! ## Documents -/

/-- The part of a document that has been read, and the path of its latest header. -/
structure Document where
  members : Members
  header : List Key

/-- A header in brackets, or in doubled ones. -/
def header (document : Document) : Reader Document := do
  let start ← offset
  expect '['
  let doubled ← accept '['
  let (path, key) ← key
  expect ']'
  if doubled then expect ']'
  let span : Span := ⟨start, ← offset⟩
  let opened := if doubled then document.members.openElement path key span
    else document.members.openTable path key span
  pure ⟨← (opened : Option Members), path ++ [key]⟩

def member (document : Document) : Reader Document := do
  let (path, key, value) ← assignment blanks (value nestingLimit)
  let members ← (document.members.insert document.header path key value : Option Members)
  pure { document with members := members }

def lines : Nat → Document → Reader Document
  | 0, document => pure document
  | fuel + 1, document => do
    anyGap
    match ← peek with
    | none => pure document
    | some c => do
      let document ← if c = '[' then header document else member document
      blanks
      comment
      lineEnd
      lines fuel document

end Reader

/-- The members of a document. A byte order mark at its start counts for nothing. -/
def parse (text : String) : Option Members :=
  let chars := text.toList
  let start : Cursor := match chars with
    | '\ufeff' :: rest => ⟨3, rest⟩
    | chars => ⟨0, chars⟩
  (Reader.lines (chars.length + 1) ⟨[], []⟩ start).map (·.1.members)

end PlusCalGo.Toml
