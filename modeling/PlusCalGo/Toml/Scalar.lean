import PlusCalGo.Toml.Basic

/-!
# TOML numbers and dates

What a word without quotation marks stands for.
-/

namespace PlusCalGo.Toml

def isDigit (c : Char) : Bool := '0' ≤ c && c ≤ '9'

def hexDigitValue? (c : Char) : Option Nat :=
  if '0' ≤ c ∧ c ≤ '9' then some (c.toNat - 48)
  else if 'a' ≤ c ∧ c ≤ 'f' then some (c.toNat - 87)
  else if 'A' ≤ c ∧ c ≤ 'F' then some (c.toNat - 55)
  else none

/-- Digits without the underscores, each of which stands between two of them. -/
def plainDigits? (accept : Char → Bool) : List Char → Option (List Char)
  | [] => none
  | [c] => if accept c then some [c] else none
  | c :: '_' :: rest => if accept c then (c :: ·) <$> plainDigits? accept rest else none
  | c :: rest => if accept c then (c :: ·) <$> plainDigits? accept rest else none

/-- The number some digits write. -/
def naturalOf (base : Nat) (digits : List Char) : Nat :=
  digits.foldl (fun n c => n * base + (hexDigitValue? c).getD 0) 0

/-- Digits of a decimal number. A zero at the start stands alone. -/
def wholeDigits? (chars : List Char) : Option (List Char) :=
  match plainDigits? isDigit chars with
  | some ('0' :: _ :: _) => none
  | digits => digits

/-- Whether there is a minus sign, and what follows the sign. -/
def splitSign : List Char → Bool × List Char
  | '-' :: rest => (true, rest)
  | '+' :: rest => (false, rest)
  | rest => (false, rest)

def based? (base : Nat) (chars : List Char) : Option Int :=
  let accept (c : Char) : Bool :=
    match hexDigitValue? c with
    | some value => value < base
    | none => false
  (plainDigits? accept chars).map fun digits => Int.ofNat (naturalOf base digits)

/-- Only decimal integers have signs. -/
def integer? : List Char → Option Int
  | '0' :: 'x' :: rest => based? 16 rest
  | '0' :: 'o' :: rest => based? 8 rest
  | '0' :: 'b' :: rest => based? 2 rest
  | chars =>
    let (negative, rest) := splitSign chars
    (wholeDigits? rest).map fun digits =>
      if negative then -Int.ofNat (naturalOf 10 digits) else Int.ofNat (naturalOf 10 digits)

/-- The float of a decimal number. Beyond 400 digits in front of the point or zeros behind it, the
size alone decides. -/
def scaledFloat? (digits : List Char) (exponent : Int) : Option Float :=
  let digits := digits.dropWhile (· = '0')
  let size := exponent + digits.length
  if digits.isEmpty ∨ size < -400 then some 0.0
  else if 400 < size then none
  else
    let value := Float.ofScientific (naturalOf 10 digits) (exponent < 0) exponent.natAbs
    if value.isInf then none else some value

/-- The part after an `e`. Its digits may start with zeros. -/
def exponent? (chars : List Char) : Option Int :=
  let (negative, rest) := splitSign chars
  (plainDigits? isDigit rest).map fun digits =>
    if negative then -Int.ofNat (naturalOf 10 digits) else Int.ofNat (naturalOf 10 digits)

/-- The size of a float with a point, an exponent or both. -/
def magnitude? (chars : List Char) : Option (Option Float) := do
  let isPart (c : Char) : Bool := isDigit c || c = '_'
  let whole ← wholeDigits? (chars.takeWhile isPart)
  match chars.dropWhile isPart with
  | '.' :: rest =>
    let fraction ← plainDigits? isDigit (rest.takeWhile isPart)
    let digits := whole ++ fraction
    match rest.dropWhile isPart with
    | [] => pure (scaledFloat? digits (-fraction.length))
    | e :: rest =>
      if e = 'e' ∨ e = 'E' then do
        pure (scaledFloat? digits ((← exponent? rest) - fraction.length))
      else none
  | e :: rest =>
    if e = 'e' ∨ e = 'E' then do pure (scaledFloat? whole (← exponent? rest)) else none
  | [] => none

def float? (chars : List Char) : Option (Option Float) :=
  let (negative, rest) := splitSign chars
  let sign (x : Float) : Float := if negative then -x else x
  if rest = ['i', 'n', 'f'] then some (some (sign (1.0 / 0.0)))
  else if rest = ['n', 'a', 'n'] then some (some (0.0 / 0.0))
  else (magnitude? rest).map fun value => value.map sign

/-! ## Dates and times -/

/-- The number that two digits write, and what follows them. -/
def twoDigits? : List Char → Option (Nat × List Char)
  | a :: b :: rest =>
    if isDigit a && isDigit b then some (naturalOf 10 [a, b], rest) else none
  | _ => none

def isLeapYear (year : Nat) : Bool := (year % 4 = 0 && year % 100 ≠ 0) || year % 400 = 0

def daysInMonth (year month : Nat) : Nat :=
  if month = 2 then if isLeapYear year then 29 else 28
  else if month ∈ [4, 6, 9, 11] then 30 else 31

/-- What follows the date at the start. -/
def afterDate? (chars : List Char) : Option (List Char) := do
  let (century, rest) ← twoDigits? chars
  let (year, rest) ← twoDigits? rest
  match rest with
  | '-' :: rest =>
    let (month, rest) ← twoDigits? rest
    match rest with
    | '-' :: rest =>
      let (day, rest) ← twoDigits? rest
      if 1 ≤ month ∧ month ≤ 12 ∧ 1 ≤ day ∧ day ≤ daysInMonth (century * 100 + year) month then
        some rest
      else none
    | _ => none
  | _ => none

/-- What follows the hours and minutes at the start. -/
def afterMinutes? (chars : List Char) : Option (List Char) := do
  let (hour, rest) ← twoDigits? chars
  match rest with
  | ':' :: rest =>
    let (minute, rest) ← twoDigits? rest
    if hour ≤ 23 ∧ minute ≤ 59 then some rest else none
  | _ => none

/-- What follows the time at the start. Seconds may be missing, and there may be a leap second. -/
def afterTime? (chars : List Char) : Option (List Char) := do
  let rest ← afterMinutes? chars
  match rest with
  | ':' :: rest =>
    let (second, rest) ← twoDigits? rest
    if 60 < second then none
    else match rest with
      | '.' :: rest =>
        if (rest.takeWhile isDigit).isEmpty then none else some (rest.dropWhile isDigit)
      | rest => some rest
  | rest => some rest

def isOffset : List Char → Bool
  | [] => true
  | '+' :: rest | '-' :: rest => afterMinutes? rest = some []
  | rest => rest = ['Z'] || rest = ['z']

/-- A date, a time, or both; only a date with a time may have an offset. -/
def isDatetime (chars : List Char) : Bool :=
  match afterDate? chars with
  | none => afterTime? chars = some []
  | some [] => true
  | some (c :: rest) =>
    (c = 'T' || c = 't' || c = ' ') &&
      match afterTime? rest with
      | some rest => isOffset rest
      | none => false

/-- The scalar a word stands for. -/
def scalar? (word : List Char) : Option Scalar :=
  if word = ['t', 'r', 'u', 'e'] then some (.boolean true)
  else if word = ['f', 'a', 'l', 's', 'e'] then some (.boolean false)
  else if isDatetime word then some .datetime
  else match integer? word with
    | some value => some (.integer value)
    | none => (float? word).map .float

end PlusCalGo.Toml
