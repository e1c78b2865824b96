/-!
# Shortest decimals

The shortest decimal text that reads back as a given floating point number, with two ways of writing
it: always positional, or with an exponent outside of a middle range.
-/

namespace PlusCalGo.Text

/-- A decimal `d.ddd · 10 ^ exponent`: its significant digits and the exponent of the first one. -/
structure Decimal where
  digits : List Char
  exponent : Int

namespace Decimal

/-- The exponent of the first digit of `num / den`, for positive numbers below `10 ^ steps`. -/
private def leadingExponent (num den : Nat) : Nat → Int
  | 0 => 0
  | steps + 1 =>
    if num < den then leadingExponent (num * 10) den steps - 1
    else if num < den * 10 then 0
    else leadingExponent num (den * 10) steps + 1

/-- The digits of `n` without trailing zeros, and the exponent of the first digit when the last
digit of `n` counts `10 ^ unit`. -/
private def ofNat (n : Nat) (unit : Int) : Decimal :=
  let digits := Nat.toDigits 10 n
  ⟨(digits.reverse.dropWhile (· = '0')).reverse, unit + (digits.length - 1)⟩

/-- The numbers that read back as a positive floating point number `m · 2 ^ q`: bounds and value
over one denominator, and whether the bounds themselves read back. -/
private structure Interval where
  low : Nat
  value : Nat
  high : Nat
  den : Nat
  closed : Bool

/-- The bounds lie half a step away; below a power of two steps are half as wide. -/
private def Interval.ofParts (m : Nat) (q : Int) (lowest : Bool) : Interval :=
  let scale := if q < 2 then 1 else Nat.pow 2 (q - 2).toNat
  let den := if q < 2 then Nat.pow 2 (2 - q).toNat else 1
  let below := if m = Nat.pow 2 52 && !lowest then 1 else 2
  ⟨(4 * m - below) * scale, 4 * m * scale, (4 * m + 2) * scale, den, m % 2 = 0⟩

/-- Is `n · 10 ^ unit` in the interval? -/
private def Interval.contains (i : Interval) (n : Nat) (unit : Int) : Bool :=
  let left := if unit < 0 then n * i.den else n * Nat.pow 10 unit.toNat * i.den
  let scale := if unit < 0 then Nat.pow 10 (-unit).toNat else 1
  if i.closed then i.low * scale ≤ left && left ≤ i.high * scale
  else i.low * scale < left && left < i.high * scale

/-- The member of the interval nearest to its value among those with `count` digits. -/
private def Interval.nearest? (i : Interval) (exponent : Int) (count : Nat) : Option Decimal :=
  let unit := exponent - (count - 1)
  let num : Nat := if unit < 0 then i.value * Nat.pow 10 (-unit).toNat else i.value
  let den : Nat := if unit < 0 then i.den else i.den * Nat.pow 10 unit.toNat
  let floor : Nat := num / den
  let first := if 2 * (num - floor * den) < den ∨
    (2 * (num - floor * den) = den ∧ floor % 2 = 0) then floor else floor + 1
  let second := if first = floor then floor + 1 else floor
  if i.contains first unit then some (ofNat first unit)
  else if i.contains second unit then some (ofNat second unit)
  else none

/-- The first decimal found with at most seventeen digits, fewest digits first. -/
private def Interval.shortest (i : Interval) : Decimal :=
  let exponent := leadingExponent i.value i.den 800
  ((List.range 17).findSome? fun k => i.nearest? exponent (k + 1)).getD ⟨['0'], 0⟩

/-- The shortest decimal of the size of a finite number. -/
def ofFloat (x : Float) : Decimal :=
  let bits := x.toBits.toNat % Nat.pow 2 63
  let fraction : Nat := bits % Nat.pow 2 52
  let biased : Nat := bits / Nat.pow 2 52
  if bits = 0 then ⟨['0'], 0⟩
  else if biased = 0 then (Interval.ofParts fraction (-1074) true).shortest
  else (Interval.ofParts (Nat.pow 2 52 + fraction) ((biased : Int) - 1075) (biased = 1)).shortest

/-- All digits around a point, with a zero where none would stand. -/
def positional (d : Decimal) : List Char :=
  if d.exponent < 0 then
    ['0', '.'] ++ List.replicate (-d.exponent - 1).toNat '0' ++ d.digits
  else
    let whole := d.exponent.toNat + 1
    let fraction := d.digits.drop whole
    d.digits.take whole ++ List.replicate (whole - d.digits.length) '0' ++ ['.'] ++
      (if fraction = [] then ['0'] else fraction)

/-- One digit before the point and an exponent that always has a sign. -/
def scientific (d : Decimal) : List Char :=
  let mantissa := match d.digits with
    | first :: second :: rest => first :: '.' :: second :: rest
    | digits => digits
  mantissa ++ ['e', if d.exponent < 0 then '-' else '+'] ++ Nat.toDigits 10 d.exponent.natAbs

end Decimal

private def signed (x : Float) (digits : List Char) : String :=
  String.ofList (if x.toBits.toNat < Nat.pow 2 63 then digits else '-' :: digits)

/-- A finite number with an exponent from `10 ^ 16` on and below `10 ^ -5`. -/
def compactFloat (x : Float) : String :=
  let d := Decimal.ofFloat x
  signed x (if -5 ≤ d.exponent ∧ d.exponent ≤ 15 then d.positional else d.scientific)

/-- A number without exponent, however long; what is not finite keeps its name. -/
def positionalFloat (x : Float) : String :=
  if x.isNaN then "NaN"
  else if x.isInf then signed x ['i', 'n', 'f']
  else signed x (Decimal.ofFloat x).positional

end PlusCalGo.Text
