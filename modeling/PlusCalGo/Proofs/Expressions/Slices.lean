import PlusCalGo.Proofs.Expressions.Evaluation
import PlusCalGo.Proofs.Expressions.Operations

/-!
# Slices

Values of Go with arrays and maps, and what subscripts select among them. A slice is a view of an
array; its elements are counted from zero in Go, but have numbers from one on in TLA+.
-/

namespace PlusCalGo.Go

/-! ## Values -/

/-- The elements of an array from an offset on. Lengths are integers of Go. -/
structure Slice where
  array : Nat
  offset : Nat
  length : Nat
  capacity : Nat
  length_le : length ≤ capacity
  capacity_lt : capacity < 2 ^ 63
deriving DecidableEq

/-- Where an element of an array or a map lies. -/
inductive Address where
  | position (array index : Nat)
  | entry (map : Nat) (key : Int)
deriving DecidableEq

/-- A value. The map with number zero was never made. -/
inductive Datum where
  | scalar (value : Value)
  | text (value : String)
  | slice (slice : Slice)
  | map (number : Nat)
deriving DecidableEq

abbrev Memory : Type := Cell Address → Datum

namespace Slice

variable (slice : Slice)

/-- Where the element at an index lies. -/
def at? (index : Int) : Option Address :=
  if 0 ≤ index ∧ index < slice.length then
    some (.position slice.array (slice.offset + index.toNat))
  else none

/-- Where the element with a number lies. The first one has the number one. -/
def number? (number : Int) : Option Address :=
  if 1 ≤ number ∧ number ≤ slice.length then
    some (.position slice.array (slice.offset + (number - 1).toNat))
  else none

/-- All elements from an index on. -/
def from? (low : Int) : Option Slice :=
  if 0 ≤ low ∧ low ≤ slice.length then
    some ⟨slice.array, slice.offset + low.toNat, slice.length - low.toNat,
      slice.capacity - low.toNat, Nat.sub_le_sub_right slice.length_le _,
      Nat.lt_of_le_of_lt (Nat.sub_le _ _) slice.capacity_lt⟩
  else none

/-- The element with a number, in a memory that stays as it is. -/
def select (memory : Memory) (number : Int) : Option (Datum × Memory) :=
  (slice.number? number).map fun address => (memory (.element address), memory)

variable {slice} {number other index : Int}

theorem length_lt : slice.length < 2 ^ 63 :=
  Nat.lt_of_le_of_lt slice.length_le slice.capacity_lt

theorem number?_eq_none (h : number < 1 ∨ slice.length < number) : slice.number? number = none :=
  if_neg (by omega)

theorem length_eq_zero_of_from? (h : slice.from? 1 = none) : slice.length = 0 := by
  by_contra hlength
  rw [from?, if_pos (by omega)] at h
  cases h

theorem at?_eq_number? : slice.at? index = slice.number? (index + 1) := by
  have hindex : index + 1 - 1 = index := by omega
  by_cases h : 0 ≤ index ∧ index < slice.length
  · rw [at?, number?, if_pos h, if_pos (by omega), hindex]
  · rw [at?, number?, if_neg h, if_neg (by omega)]

/-- The first element is left out of the others, so their numbers are smaller by one. -/
theorem number?_of_from? {others : Slice} (h : slice.from? 1 = some others)
    (hpositive : 1 ≤ number) :
    others.number? number = slice.number? (number + 1) := by
  obtain ⟨hlength, h⟩ := Option.ite_none_right_eq_some.1 h
  obtain ⟨harray, hoffset, hothers⟩ : others.array = slice.array ∧
      others.offset = slice.offset + 1 ∧ others.length = slice.length - 1 := by
    cases h
    exact ⟨rfl, rfl, rfl⟩
  by_cases hbound : number + 1 ≤ slice.length
  · have hindex : slice.offset + 1 + (number - 1).toNat =
        slice.offset + (number + 1 - 1).toNat := by
      omega
    rw [number?, number?, if_pos (by omega), if_pos (by omega), harray, hoffset, hindex]
  · rw [number?_eq_none (by omega), number?_eq_none (by omega)]

end Slice

/-! ## Integers among the values -/

namespace Value

/-- The integer that a value is. -/
def toInt? : Value → Option Int
  | constant value => some value
  | int value => some value.toInt
  | bool _ => none

theorem fits_toInt (word : Int64) : Fits word.toInt :=
  ⟨Int64.le_toInt word, Int64.toInt_lt word⟩

/-- A step out of the range of integers leads to the other end of it. -/
theorem bmod_step {n step : Int} (hn : Fits n) (hstep : step = 1 ∨ step = -1) :
    (n + step).bmod (2 ^ 64) = n + step ∨ (n + step).bmod (2 ^ 64) = n + step + 2 ^ 64 ∨
      (n + step).bmod (2 ^ 64) = n + step - 2 ^ 64 := by
  by_cases hfits : Fits (n + step)
  · exact .inl (bmod_of_fits hfits)
  · have hends : n + step = 2 ^ 63 ∨ n + step = -2 ^ 63 - 1 := by
      simp only [Fits] at hn hfits
      omega
    rcases hends with hend | hend
    · rw [hend]
      exact .inr (.inr rfl)
    · rw [hend]
      exact .inr (.inl rfl)

/-- One more or one less. Integers wrap around. -/
theorem binary_one {op : String} {step : Int} (hop : op = "+" ∧ step = 1 ∨ op = "-" ∧ step = -1)
    {value : Value} {n : Int} (h : value.toInt? = some n) :
    ∃ result m, value.binary op (constant 1) = some result ∧ result.toInt? = some m ∧
      (m = n + step ∨ Fits n ∧ Fits m ∧ (m = n + step + 2 ^ 64 ∨ m = n + step - 2 ^ 64)) := by
  cases value with
  | bool _ => cases h
  | constant a =>
    cases h
    rcases hop with ⟨rfl, rfl⟩ | ⟨rfl, rfl⟩
    · exact ⟨_, _, rfl, rfl, .inl rfl⟩
    · exact ⟨_, _, rfl, rfl, .inl rfl⟩
  | int a =>
    cases h
    have hone : (Int64.ofInt 1).toInt = 1 := rfl
    have hstep : step = 1 ∨ step = -1 := by omega
    have hsum (word : Int64) (hword : word.toInt = (a.toInt + step).bmod (2 ^ 64)) :
        word.toInt = a.toInt + step ∨ Fits a.toInt ∧ Fits word.toInt ∧
          (word.toInt = a.toInt + step + 2 ^ 64 ∨ word.toInt = a.toInt + step - 2 ^ 64) := by
      have hwhole := bmod_step (fits_toInt a) hstep
      rw [← hword] at hwhole
      exact hwhole.imp_right fun hwrapped => ⟨fits_toInt a, fits_toInt word, hwrapped⟩
    rcases hop with ⟨rfl, rfl⟩ | ⟨rfl, rfl⟩
    · refine ⟨int (a + .ofInt 1), _, rfl, rfl, hsum _ ?_⟩
      rw [Int64.toInt_add, hone]
    · refine ⟨int (a - .ofInt 1), _, rfl, rfl, hsum _ ?_⟩
      rw [Int64.toInt_sub, hone, Int.sub_eq_add_neg]

end Value

/-! ## Evaluation -/

/-- What functions and literals do. Where there is no result, the program panics. -/
structure Functions where
  call : String → List Datum → Memory → Option (Datum × Memory)
  ints : List Datum → Memory → Option (Datum × Memory)

/-- Literals fill the first array. There are no other functions. -/
def Functions.literals : Functions where
  call _ _ _ := none
  ints elements memory :=
    if h : elements.length < 2 ^ 63 then
      some (.slice ⟨0, 0, elements.length, elements.length, Nat.le_refl _, h⟩, fun cell =>
        match cell with
        | .element (.position 0 place) => elements.getD place (memory cell)
        | _ => memory cell)
    else none

/-- Operations on strings. They are ordered by their code points. -/
def textBinary (op : String) (a b : String) : Option Datum :=
  match op with
  | "+" => some (.text (a ++ b))
  | "==" => some (.scalar (.bool (a = b)))
  | "!=" => some (.scalar (.bool (a ≠ b)))
  | "<" => some (.scalar (.bool (a < b)))
  | "<=" => some (.scalar (.bool (a ≤ b)))
  | ">" => some (.scalar (.bool (a > b)))
  | ">=" => some (.scalar (.bool (a ≥ b)))
  | _ => none

namespace Functions

/-- Values with slices and maps. Slices are subscripted by integers up to their length, maps by any
integers. -/
def runtime (functions : Functions) : Runtime where
  Value := Datum
  Address := Address
  int value := .scalar (.constant value)
  text := .text
  unary
    | op, .scalar value => (value.unary op).map .scalar
    | _, _ => none
  binary
    | op, .scalar a, .scalar b => (a.binary op b).map .scalar
    | op, .text a, .text b => textBinary op a b
    | _, _, _ => none
  decides?
    | op, .scalar value => (value.decides? op).map fun result => .scalar (.bool result)
    | _, _ => none
  isTrue?
    | .scalar (.bool value) => some value
    | _ => none
  element
    | .slice slice, .scalar key => key.toInt64?.bind fun index => slice.at? index.toInt
    | .map number, .scalar key => key.toInt64?.map fun key => .entry number key.toInt
    | _, _ => none
  fixed
    | .entry number _ => number = 0
    | .position _ _ => false
  slice
    | .slice slice, .scalar low => low.toInt64?.bind fun low => (slice.from? low.toInt).map .slice
    | _, _ => none
  call := functions.call
  ints := functions.ints

variable {functions : Functions} {slice : Slice} {value : Value} {n : Int}

/-- A subscript selects the element with the next number. -/
theorem element_eq_number? (h : value.toInt? = some n) :
    functions.runtime.element (.slice slice) (.scalar value) = slice.number? (n + 1) := by
  have hlength := slice.length_lt
  cases value with
  | bool _ => cases h
  | int word =>
    cases h
    exact Slice.at?_eq_number?
  | constant a =>
    cases h
    show (if Fits n then some (Int64.ofInt n) else none).bind _ = _
    by_cases hfits : Fits n
    · rw [if_pos hfits, Option.bind_some, toInt_ofInt hfits, Slice.at?_eq_number?]
    · rw [if_neg hfits, Option.bind_none, Slice.number?_eq_none]
      simp only [Fits] at hfits
      omega

section Evaluation

variable {temporaries : functions.runtime.Temporaries} {root key : Term}
  {store between after : Memory}

theorem eval_index
    (hroot : functions.runtime.eval temporaries root store = some (.slice slice, between))
    (hkey : functions.runtime.eval temporaries key between = some (.scalar value, after))
    (hvalue : value.toInt? = some n) :
    functions.runtime.eval temporaries (.index root key) store = slice.select after (n + 1) := by
  rw [Runtime.eval_index hroot hkey, element_eq_number? hvalue]
  rfl

/-- One more or one less than a key. -/
theorem eval_step {op : String} {step : Int} (hop : op = "+" ∧ step = 1 ∨ op = "-" ∧ step = -1)
    (hkey : functions.runtime.eval temporaries key store = some (.scalar value, after))
    (hvalue : value.toInt? = some n) :
    ∃ result m, functions.runtime.eval temporaries (.binary op key (.int 1)) store =
        some (.scalar result, after) ∧ result.toInt? = some m ∧
      (m = n + step ∨ Fits n ∧ Fits m ∧ (m = n + step + 2 ^ 64 ∨ m = n + step - 2 ^ 64)) := by
  obtain ⟨result, m, hresult, hm, hstep⟩ := Value.binary_one hop hvalue
  refine ⟨result, m, ?_, hm, hstep⟩
  have hdecides : functions.runtime.decides? op (.scalar value) = none := by
    have hnone : value.decides? op = none := by
      cases value with
      | bool _ => cases hvalue
      | _ => rfl
    simp only [runtime, hnone, Option.map_none]
  have hbinary : functions.runtime.binary op (.scalar value) (.scalar (.constant 1)) =
      some (.scalar result) := by
    simp only [runtime, hresult, Option.map_some]
  have hone : functions.runtime.eval temporaries (.int 1) after =
      some (.scalar (.constant 1), after) := rfl
  rw [Runtime.eval_binary hkey hdecides hone, hbinary]
  rfl

/-- The key of a subscript that is counted from one is reduced by one. -/
theorem eval_reduced
    (hroot : functions.runtime.eval temporaries root store = some (.slice slice, between))
    (hkey : functions.runtime.eval temporaries key between = some (.scalar value, after))
    (hvalue : value.toInt? = some n) :
    functions.runtime.eval temporaries (.index root (.binary "-" key (.int 1))) store =
      slice.select after n := by
  have hlength := slice.length_lt
  obtain ⟨result, m, hresult, hm, hstep⟩ := eval_step (.inr ⟨rfl, rfl⟩) hkey hvalue
  have hnumber : slice.number? (m + 1) = slice.number? n := by
    rcases hstep with hexact | ⟨hn, hfits, hwrapped⟩
    · rw [hexact, Int.neg_add_cancel_right]
    · simp only [Fits] at hn hfits
      rw [Slice.number?_eq_none (by omega), Slice.number?_eq_none (by omega)]
  rw [eval_index hroot hresult hm, Slice.select, hnumber, Slice.select]

/-- Everything but the first element. -/
theorem eval_others
    (hroot : functions.runtime.eval temporaries root store = some (.slice slice, between)) :
    functions.runtime.eval temporaries (.slice root (.int 1)) store =
      (slice.from? 1).map fun others => (.slice others, between) := by
  have hone : functions.runtime.eval temporaries (.int 1) between =
      some (.scalar (.constant 1), between) := rfl
  have hslice : functions.runtime.slice (.slice slice) (.scalar (.constant 1)) =
      (slice.from? 1).map .slice := rfl
  rw [Runtime.eval_slice hroot hone, hslice]
  cases slice.from? 1 <;> rfl

end Evaluation

end Functions

end PlusCalGo.Go
