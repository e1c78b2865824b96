/-!
# Durations

Lengths of time in the largest unit that leaves a whole part.
-/

namespace PlusCalGo.Text

/-- The digits of a fraction with this many places, without the zeros at its end. -/
def fractionDigits (places fraction : Nat) : List Char :=
  let digits := Nat.toDigits 10 fraction
  let padded := List.replicate (places - digits.length) '0' ++ digits
  (padded.reverse.dropWhile (· = '0')).reverse

/-- A number of units with a fraction of so many places. -/
def inUnit (nanoseconds places : Nat) (unit : String) : String :=
  let fraction := fractionDigits places (nanoseconds % Nat.pow 10 places)
  Nat.repr (nanoseconds / Nat.pow 10 places) ++
    String.ofList (if fraction.isEmpty then [] else '.' :: fraction) ++ unit

def duration (nanoseconds : Nat) : String :=
  if Nat.pow 10 9 ≤ nanoseconds then inUnit nanoseconds 9 "s"
  else if Nat.pow 10 6 ≤ nanoseconds then inUnit nanoseconds 6 "ms"
  else if Nat.pow 10 3 ≤ nanoseconds then inUnit nanoseconds 3 "µs"
  else inUnit nanoseconds 0 "ns"

end PlusCalGo.Text
