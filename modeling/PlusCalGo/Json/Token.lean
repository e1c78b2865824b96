import PlusCalGo.Json.Fault
import PlusCalGo.Text.Decimal

/-!
# Tokens of JSON text

Readers of blanks, words, strings and numbers. A reader takes the characters not read yet and gives
a value and the characters after it, or the failure that ends the reading.
-/

namespace PlusCalGo.Json

open Text (byteLength)

/-- What ends a reading. A `placed` fault is reported where `left` bytes were unread; an `unplaced`
one takes its place from the end of the value around it. -/
inductive Failure where
  | placed (cause : Cause) (left : Nat)
  | unplaced (cause : Cause) (rest : List Char)
deriving Inhabited

abbrev Reader := StateT (List Char) (Except Failure)

namespace Reader

/-- Fails at the place reached. -/
def failHere {α : Type} (cause : Cause) : Reader α :=
  fun rest => .error (.placed cause (byteLength rest))

/-- Fails one byte further on, unless the text ends here. -/
def failNext {α : Type} (cause : Cause) : Reader α :=
  fun rest => .error (.placed cause (byteLength rest - 1))

/-- Fails at a place that the value around this one decides. -/
def failLater {α : Type} (cause : Cause) : Reader α :=
  fun rest => .error (.unplaced cause rest)

def isBlank (c : Char) : Bool := c = ' ' || c = '\n' || c = '\t' || c = '\r'

/-- The first character after the blanks, which stays unread. -/
def peek : Reader (Option Char) := fun rest =>
  let rest := rest.dropWhile isBlank
  .ok (rest.head?, rest)

/-- Drops the next character. -/
def advance : Reader Unit := fun rest => .ok ((), rest.tail)

/-- Reads the characters of a word one by one. -/
def word : List Char → Reader Unit
  | [] => pure ()
  | expected :: more => do
    match (← get).head? with
    | none => failHere .endInValue
    | some c => if c = expected then do advance; word more else failNext .expectedIdent

/-! ## Strings -/

def hexValue? (c : Char) : Option Nat :=
  if '0' ≤ c ∧ c ≤ '9' then some (c.toNat - 48)
  else if 'a' ≤ c ∧ c ≤ 'f' then some (c.toNat - 87)
  else if 'A' ≤ c ∧ c ≤ 'F' then some (c.toNat - 55)
  else none

/-- The number that four hexadecimal digits write. Fewer than four bytes end the text, other bytes
are no escape. -/
def hexUnit (rest : List Char) : Except Failure Nat :=
  let value? := match rest with
    | a :: b :: c :: d :: _ => do
      pure ((((← hexValue? a) * 16 + (← hexValue? b)) * 16 + (← hexValue? c)) * 16 +
        (← hexValue? d))
    | _ => none
  match value? with
  | some value => .ok value
  | none =>
    if byteLength rest < 4 then .error (.placed .endInString 0)
    else .error (.placed .invalidEscape (byteLength rest - 4))

/-- The second half of a pair of surrogates, after the first one with the value `high`. -/
def lowSurrogate (high : Nat) (rest : List Char) : Except Failure Char :=
  match rest with
  | [] => .error (.placed .endInString 0)
  | '\\' :: rest =>
    match rest with
    | [] => .error (.placed .endInString 0)
    | 'u' :: rest => do
      let low ← hexUnit rest
      if 0xdc00 ≤ low ∧ low ≤ 0xdfff then
        pure (Char.ofNat (0x10000 + (high - 0xd800) * 0x400 + (low - 0xdc00)))
      else throw (.placed .loneSurrogate (byteLength rest - 4))
    | rest => .error (.placed .unpairedSurrogate (byteLength rest - 1))
  | rest => .error (.placed .unpairedSurrogate (byteLength rest - 1))

/-- The character that an escape stands for, and how many characters follow its backslash. -/
def escape (rest : List Char) : Except Failure (Char × Nat) :=
  match rest with
  | [] => .error (.placed .endInString 0)
  | c :: rest =>
    if c = '\"' ∨ c = '\\' ∨ c = '/' then .ok (c, 1)
    else if c = 'b' then .ok ('\x08', 1)
    else if c = 'f' then .ok ('\x0c', 1)
    else if c = 'n' then .ok ('\n', 1)
    else if c = 'r' then .ok ('\r', 1)
    else if c = 't' then .ok ('\t', 1)
    else if c = 'u' then do
      let unit ← hexUnit rest
      if 0xdc00 ≤ unit ∧ unit ≤ 0xdfff then
        throw (.placed .loneSurrogate (byteLength rest - 4))
      else if 0xd800 ≤ unit ∧ unit ≤ 0xdbff then
        pure (← lowSurrogate unit (rest.drop 4), 11)
      else pure (Char.ofNat unit, 5)
    else .error (.placed .invalidEscape (byteLength (c :: rest) - 1))

/-- The string up to its closing quotation mark. `skip` counts the characters that belong to the
escape read last, `read` holds the characters of the string backwards. -/
def stringFrom (skip : Nat) (read : List Char) : List Char → Except Failure (String × List Char)
  | [] => .error (.placed .endInString 0)
  | c :: rest =>
    match skip with
    | skip + 1 => stringFrom skip read rest
    | 0 =>
      if c = '\"' then .ok (String.ofList read.reverse, rest)
      else if c = '\\' then
        match escape rest with
        | .error failure => .error failure
        | .ok (c, length) => stringFrom length (c :: read) rest
      else if c.toNat < 32 then .error (.placed .controlCharacter (byteLength rest))
      else stringFrom 0 (c :: read) rest

/-- A string after its opening quotation mark. -/
def stringBody : Reader String := stringFrom 0 []

/-- The same for a string nobody asked for: surrogates need no partner, and a control character is
reported before it is read. -/
def skipStringFrom (skip : Nat) : List Char → Except Failure (Unit × List Char)
  | [] => .error (.placed .endInString 0)
  | c :: rest =>
    match skip with
    | skip + 1 => skipStringFrom skip rest
    | 0 =>
      if c = '\"' then .ok ((), rest)
      else if c = '\\' then
        match rest with
        | [] => .error (.placed .endInString 0)
        | e :: more =>
          if e = 'u' then
            match hexUnit more with
            | .error failure => .error failure
            | .ok _ => skipStringFrom 5 rest
          else if e ∈ ['\"', '\\', '/', 'b', 'f', 'n', 'r', 't'] then skipStringFrom 1 rest
          else .error (.placed .invalidEscape (byteLength rest - 1))
      else if c.toNat < 32 then .error (.placed .controlCharacter (byteLength (c :: rest)))
      else skipStringFrom 0 rest

def skipStringBody : Reader Unit := skipStringFrom 0

/-! ## Numbers -/

/-- A number as the text gives it: an integer of 64 bits, or else a decimal. -/
inductive Number where
  | integer (value : Int)
  | float (value : Float)

def Number.found : Number → Found
  | integer value => .integer value
  | float value => .float (Text.compactFloat value)

/-- The digits that come next. -/
def digits : Reader (List Char) := fun rest =>
  .ok (rest.takeWhile Char.isDigit, rest.dropWhile Char.isDigit)

def digitsValue (digits : List Char) : Nat :=
  digits.foldl (fun n c => n * 10 + (c.toNat - 48)) 0

/-- The longest start of the digits, put after `n`, that fits 64 bits, and how many digits it
leaves. -/
def significand (n : Nat) : List Char → Nat × Nat
  | [] => (n, 0)
  | c :: rest =>
    if n * 10 + (c.toNat - 48) < UInt64.size then significand (n * 10 + (c.toNat - 48)) rest
    else (n, rest.length + 1)

/-- `significand · 10 ^ exponent` by one multiplication or division where the power of ten is a
number, and none where it overflows. Larger divisions go in steps of `10 ^ 308`. -/
def scaled? (f : Float) (exponent : Int) : Nat → Option Float
  | 0 => some f
  | steps + 1 =>
    if exponent.natAbs ≤ 308 then
      let power := Float.ofScientific 1 false exponent.natAbs
      if 0 ≤ exponent then
        if (f * power).isInf then none else some (f * power)
      else some (f / power)
    else if f == 0.0 then some f
    else if 0 ≤ exponent then none
    else scaled? (f / Float.ofScientific 1 false 308) (exponent + 308) steps

/-- The exponent's sign and digits, after its letter. An exponent beyond 32 bits is given as
`none`; with `strict` it is refused as soon as it is seen. -/
def exponentDigits (strict : Bool) : Reader (Option Int) := do
  let c ← (·.head?) <$> get
  if c = some '+' || c = some '-' then advance
  match (← get).head? with
  | none => failHere .endInValue
  | some first =>
    if !first.isDigit then failNext .invalidNumber
    else do
      let rest ← get
      let all ← digits
      if digitsValue all < Nat.pow 2 31 then
        pure (some (if c = some '-' then -(digitsValue all : Int) else digitsValue all))
      else do
        let fitting := (List.range all.length).takeWhile fun k =>
          digitsValue (all.take (k + 1)) < Nat.pow 2 31
        if strict && c != some '-' then do
          set (rest.drop (fitting.length + 1))
          failHere .numberOutOfRange
        else pure none

/-- A number after its sign. -/
def numberBody (negative : Bool) : Reader Number := do
  match (← get).head? with
  | none => failHere .endInValue
  | some first =>
    if !first.isDigit then failNext .invalidNumber
    else do
      let whole ← if first = '0' then do
          advance
          if ((← get).head?.map Char.isDigit).getD false then failNext .invalidNumber
          pure ['0']
        else digits
      let (n, dropped) := significand 0 whole
      let fraction ← if (← get).head? = some '.' then do
          advance
          let fraction ← digits
          if fraction.isEmpty then
            if (← get).isEmpty then failNext .endInValue else failNext .invalidNumber
          pure (some fraction)
        else pure none
      let (n, exponent) := match fraction with
        | some fraction =>
          let (m, ignored) := significand n fraction
          (m, (dropped : Int) - (fraction.length - ignored : Nat))
        | none => (n, (dropped : Int))
      let sign (f : Float) : Number := .float (if negative then -f else f)
      if (← get).head? = some 'e' || (← get).head? = some 'E' then do
        advance
        match ← exponentDigits (n ≠ 0) with
        | none => pure (sign 0.0)
        | some power =>
          match scaled? (UInt64.ofNat n).toFloat (exponent + power) 8 with
          | some f => pure (sign f)
          | none => failHere .numberOutOfRange
      else if fraction.isSome || dropped ≠ 0 then
        match scaled? (UInt64.ofNat n).toFloat exponent 8 with
        | some f => pure (sign f)
        | none => failHere .numberOutOfRange
      else if !negative then pure (.integer n)
      else if n = 0 || Nat.pow 2 63 < n then pure (sign (UInt64.ofNat n).toFloat)
      else pure (.integer (-(n : Int)))

/-- A number nobody asked for. -/
def skipNumberBody : Reader Unit := do
  let isNextDigit : Reader Bool := do pure (((← get).head?.map Char.isDigit).getD false)
  if !(← isNextDigit) then failNext .invalidNumber
  if (← get).head? = some '0' then do
    advance
    if ← isNextDigit then failNext .invalidNumber
  else discard digits
  if (← get).head? = some '.' then do
    advance
    if (← digits).isEmpty then failNext .invalidNumber
  if (← get).head? = some 'e' || (← get).head? = some 'E' then do
    advance
    if (← get).head? = some '+' || (← get).head? = some '-' then advance
    if !(← isNextDigit) then failNext .invalidNumber
    discard digits

end Reader

end PlusCalGo.Json
