import PlusCalGo.Json.Token

/-!
# Values nobody asked for

Members with unknown names may hold any JSON value. It is read over without limit on its depth, and
must be well-formed.
-/

namespace PlusCalGo.Json.Reader

/-- A bracket that is still open. -/
inductive Bracket where
  | list
  | object
deriving DecidableEq

def Bracket.endFailure : Bracket → Cause
  | list => .endInList
  | object => .endInObject

def Bracket.separatorFailure : Bracket → Cause
  | list => .expectedCommaOrBracket
  | object => .expectedCommaOrBrace

def Bracket.closing : Bracket → Char
  | list => ']'
  | object => '\x7d'

/-- A key and its colon. -/
def skipKey : Reader Unit := do
  match ← peek with
  | some '\"' => advance
  | some _ => failNext .keyNotString
  | none => failNext .endInObject
  skipStringBody
  match ← peek with
  | some ':' => advance
  | some _ => failNext .expectedColon
  | none => failNext .endInObject

/-- A scalar, or the opening bracket of a list or object. -/
def skipHead : Reader (Option Bracket) := do
  match ← peek with
  | none => failNext .endInValue
  | some c =>
    if c = 'n' then do advance; word ['u', 'l', 'l']; pure none
    else if c = 't' then do advance; word ['r', 'u', 'e']; pure none
    else if c = 'f' then do advance; word ['a', 'l', 's', 'e']; pure none
    else if c = '-' then do advance; skipNumberBody; pure none
    else if c.isDigit then do skipNumberBody; pure none
    else if c = '\"' then do advance; skipStringBody; pure none
    else if c = '[' then do advance; pure (some .list)
    else if c = '\x7b' then do advance; pure (some .object)
    else failNext .expectedValue

mutual

/-- Reads one value inside the `open` brackets, innermost first, and then all that these still
hold. Every step reads a character, so the length of the text bounds the steps. -/
def skipInside (unclosed : List Bracket) : Nat → Reader Unit
  | 0 => pure ()
  | steps + 1 => do
    match ← skipHead with
    | some bracket => skipMembers false (bracket :: unclosed) steps
    | none => skipMembers true unclosed steps

/-- Goes on inside the open brackets, after a value if `comma` holds. -/
def skipMembers (comma : Bool) (unclosed : List Bracket) : Nat → Reader Unit
  | 0 => pure ()
  | steps + 1 => do
    match unclosed with
    | [] => pure ()
    | bracket :: outer =>
      match ← peek with
      | none => failNext bracket.endFailure
      | some c =>
        if c = bracket.closing then do
          advance
          skipMembers true outer steps
        else if c = ',' && comma then do
          advance
          if bracket = .object then skipKey
          skipInside unclosed steps
        else if comma then failNext bracket.separatorFailure
        else do
          if bracket = .object then skipKey
          skipInside unclosed steps

end

def skipValue : Reader Unit := do
  let rest ← get
  skipInside [] (2 * rest.length + 2)

end PlusCalGo.Json.Reader
