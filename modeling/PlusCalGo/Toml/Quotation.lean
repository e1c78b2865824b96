import PlusCalGo.Toml.Scalar

/-!
# TOML strings

The four kinds of strings, from after their opening quotation marks on.
-/

namespace PlusCalGo.Toml

/-- Control characters stand in no text, tabs apart. -/
def isControl (c : Char) : Bool := (c.toNat < 32 && c ≠ '\t') || c.toNat = 127

def isBlank (c : Char) : Bool := c = ' ' || c = '\t'

/-- The number of characters in the line end at the start, if there is one. -/
def lineEndLength : List Char → Nat
  | '\n' :: _ => 1
  | '\r' :: '\n' :: _ => 2
  | _ => 0

/-- The number of characters in the blanks and line ends at the start. -/
def gapLength : List Char → Nat
  | ' ' :: rest | '\t' :: rest | '\n' :: rest => gapLength rest + 1
  | '\r' :: '\n' :: rest => gapLength rest + 2
  | _ => 0

/-- The character that exactly so many hexadecimal digits write. -/
def hexChar? (count : Nat) (chars : List Char) : Option Char := do
  let digits := chars.take count
  if digits.length ≠ count ∨ !digits.all (fun c => (hexDigitValue? c).isSome) then none
  let code := naturalOf 16 digits
  if code.isValidChar then some (Char.ofNat code) else none

/-- The text that an escape stands for, and how many characters follow its backslash. A backslash at
the end of a line takes the blanks and line ends after it away. -/
def escape? (multiLine : Bool) (chars : List Char) : Option (List Char × Nat) :=
  match chars with
  | [] => none
  | c :: rest =>
    if multiLine && lineEndLength (chars.dropWhile isBlank) ≠ 0 then some ([], gapLength chars)
    else if c = '\"' ∨ c = '\\' then some ([c], 1)
    else if c = 'b' then some (['\x08'], 1)
    else if c = 'f' then some (['\x0c'], 1)
    else if c = 'n' then some (['\n'], 1)
    else if c = 'r' then some (['\r'], 1)
    else if c = 't' then some (['\t'], 1)
    else if c = 'e' then some (['\x1b'], 1)
    else if c = 'x' then (hexChar? 2 rest).map fun c => ([c], 3)
    else if c = 'u' then (hexChar? 4 rest).map fun c => ([c], 5)
    else if c = 'U' then (hexChar? 8 rest).map fun c => ([c], 9)
    else none

/-- Reads up to the closing mark. `skip` counts the characters of the escape or line end read last,
`read` holds the text backwards. Only `"` allows escapes. -/
def quotedFrom (mark : Char) (multiLine : Bool) (skip : Nat) (read : List Char) :
    List Char → Option (String × List Char)
  | [] => none
  | c :: rest =>
    match skip with
    | skip + 1 => quotedFrom mark multiLine skip read rest
    | 0 =>
      if c = mark then
        if multiLine then
          -- of five marks in a row the first two belong to the text
          let marks := ((c :: rest).takeWhile (· = mark)).length
          if marks < 3 then quotedFrom mark multiLine 0 (c :: read) rest
          else
            let inside := min marks 5 - 3
            some (String.ofList (read.reverse ++ List.replicate inside mark),
              rest.drop (inside + 2))
        else some (String.ofList read.reverse, rest)
      else if c = '\\' ∧ mark = '\"' then
        match escape? multiLine rest with
        | none => none
        | some (text, length) => quotedFrom mark multiLine length (text.reverse ++ read) rest
      else if multiLine ∧ lineEndLength (c :: rest) = 2 then
        quotedFrom mark multiLine 1 ('\n' :: '\r' :: read) rest
      else if isControl c ∧ !(multiLine ∧ c = '\n') then none
      else quotedFrom mark multiLine 0 (c :: read) rest

/-- A string that starts with this mark. A line end right after three marks is no part of it. -/
def quotation (mark : Char) (chars : List Char) : Option (String × List Char) :=
  match chars with
  | a :: b :: c :: rest =>
    if a = mark ∧ b = mark ∧ c = mark then
      quotedFrom mark true 0 [] (rest.drop (lineEndLength rest))
    else if a = mark then quotedFrom mark false 0 [] (b :: c :: rest)
    else none
  | a :: rest => if a = mark then quotedFrom mark false 0 [] rest else none
  | [] => none

end PlusCalGo.Toml
