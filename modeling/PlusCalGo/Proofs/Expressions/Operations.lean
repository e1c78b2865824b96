import Mathlib.Algebra.Group.Int.Defs
import Mathlib.Algebra.Group.Nat.Defs
import PlusCalGo.Go.Expression

/-!
# Operations on integers and booleans

The values of operations in TLA+ and in Go. Division of TLA+ rounds down and its remainder is never
negative; Go rounds towards zero and gives the remainder the sign of the dividend. Integers of Go
have 64 bits, but constants are computed exactly, by the compiler.
-/

namespace PlusCalGo

/-! ## TLA+ -/

/-- An integer or boolean. -/
inductive Scalar where
  | int (value : Int)
  | bool (value : Bool)
deriving DecidableEq

/-- What is known of a value before the variables have theirs. -/
inductive Kind where
  | constant (value : Int)
  | int
  | bool
deriving DecidableEq

namespace Kind

def isConstant : Kind → Bool
  | constant _ => true
  | _ => false

/-- A value of the kind. Unknown integers are one, by which every integer can be divided. -/
def sample : Kind → Scalar
  | constant value => .int value
  | int => .int 1
  | bool => .bool true

end Kind

def Scalar.kind (known : Bool) : Scalar → Kind
  | int value => if known then .constant value else .int
  | bool _ => .bool

namespace BinaryOperator

/-- The value of an operation. Divisors are positive. -/
def apply : BinaryOperator → Scalar → Scalar → Option Scalar
  | add, .int a, .int b => some (.int (a + b))
  | subtract, .int a, .int b => some (.int (a - b))
  | multiply, .int a, .int b => some (.int (a * b))
  | divide, .int a, .int b => if 0 < b then some (.int (a.fdiv b)) else none
  | modulo, .int a, .int b => if 0 < b then some (.int (a.fmod b)) else none
  | equal, .int a, .int b => some (.bool (a = b))
  | equal, .bool a, .bool b => some (.bool (a = b))
  | notEqual, .int a, .int b => some (.bool (a ≠ b))
  | notEqual, .bool a, .bool b => some (.bool (a ≠ b))
  | lessThan, .int a, .int b => some (.bool (a < b))
  | lessThanOrEqual, .int a, .int b => some (.bool (a ≤ b))
  | greaterThan, .int a, .int b => some (.bool (a > b))
  | greaterThanOrEqual, .int a, .int b => some (.bool (a ≥ b))
  | and, .bool a, .bool b => some (.bool (a && b))
  | or, .bool a, .bool b => some (.bool (a || b))
  | _, _, _ => none

/-- The left operand decides a conjunction or disjunction. -/
def decides? : BinaryOperator → Scalar → Option Bool
  | and, .bool false => some false
  | or, .bool true => some true
  | _, _ => none

theorem decides?_int (op : BinaryOperator) (a : Int) : op.decides? (.int a) = none := by
  cases op <;> rfl

end BinaryOperator

def UnaryOperator.apply : UnaryOperator → Scalar → Option Scalar
  | not, .bool a => some (.bool !a)
  | negate, .int a => some (.int (-a))
  | _, _ => none

/-! ## Go -/

namespace Go

/-- A value of an integer or boolean type. Constants are of any size and have no type yet. -/
inductive Value where
  | constant (value : Int)
  | int (value : Int64)
  | bool (value : Bool)
deriving DecidableEq

/-- The integer fits into 64 bits. -/
def Fits (n : Int) : Prop := -2 ^ 63 ≤ n ∧ n < 2 ^ 63

instance (n : Int) : Decidable (Fits n) := inferInstanceAs (Decidable (_ ∧ _))

/-- Operations on constants have no bounds. A constant divisor is not zero. -/
def unbounded (op : String) (a b : Int) : Option Int :=
  match op with
  | "+" => some (a + b)
  | "-" => some (a - b)
  | "*" => some (a * b)
  | "/" => if b = 0 then none else some (a.tdiv b)
  | "%" => if b = 0 then none else some (a.tmod b)
  | _ => none

/-- Operations on integers wrap around. Division by zero panics. -/
def wrapping (op : String) (a b : Int64) : Option Int64 :=
  match op with
  | "+" => some (a + b)
  | "-" => some (a - b)
  | "*" => some (a * b)
  | "/" => if b = 0 then none else some (a / b)
  | "%" => if b = 0 then none else some (a % b)
  | _ => none

def compared (op : String) (a b : Int) : Option Bool :=
  match op with
  | "==" => some (a = b)
  | "!=" => some (a ≠ b)
  | "<" => some (a < b)
  | "<=" => some (a ≤ b)
  | ">" => some (a > b)
  | ">=" => some (a ≥ b)
  | _ => none

namespace Value

/-- The value as an integer, where it is one or can be converted. -/
def toInt64? : Value → Option Int64
  | constant value => if Fits value then some (.ofInt value) else none
  | int value => some value
  | bool _ => none

def unary (op : String) : Value → Option Value
  | constant value => if op = "-" then some (constant (-value)) else none
  | int value => if op = "-" then some (int (-value)) else none
  | bool value => if op = "!" then some (bool !value) else none

/-- The left operand decides a conjunction or disjunction, and the right one is not evaluated. -/
def decides? (op : String) : Value → Option Bool
  | bool false => if op = "&&" then some false else none
  | bool true => if op = "||" then some true else none
  | _ => none

/-- An operation on integers, at least one of which is no constant. -/
def ofInts (op : String) (first second : Value) : Option Value := do
  let a ← first.toInt64?
  let b ← second.toInt64?
  ((wrapping op a b).map int).or ((compared op a.toInt b.toInt).map bool)

/-- An operation on the values of both operands. A constant takes the type of the other operand. -/
def binary (op : String) : Value → Value → Option Value
  | bool a, bool b =>
    match op with
    | "==" => some (bool (a = b))
    | "!=" => some (bool (a ≠ b))
    | "&&" => some (bool (a && b))
    | "||" => some (bool (a || b))
    | _ => none
  | constant a, constant b => ((unbounded op a b).map constant).or ((compared op a b).map bool)
  | first, second => ofInts op first second

def kind : Value → Kind
  | constant value => .constant value
  | int _ => .int
  | bool _ => .bool

/-- A value of the kind. -/
def ofKind : Kind → Value
  | .constant value => constant value
  | .int => int 1
  | .bool => bool true

/-- The value of a variable. -/
def ofScalar : Scalar → Value
  | .int value => int (.ofInt value)
  | .bool value => bool value

/-- The value stands for the scalar. -/
def Is : Value → Scalar → Prop
  | constant a, .int b => a = b
  | int a, .int b => a.toInt = b
  | bool a, .bool b => a = b
  | _, _ => False

end Value

end Go

open Go

/-! ## Operations -/

/-- An integer among the scalars fits into 64 bits. -/
def Scalar.Fits : Scalar → Prop
  | int value => Go.Fits value
  | bool _ => True

instance (scalar : Scalar) : Decidable scalar.Fits :=
  match scalar with
  | .int value => inferInstanceAs (Decidable (Go.Fits value))
  | .bool _ => isTrue trivial

theorem Go.toInt_ofInt {a : Int} (h : Fits a) : (Int64.ofInt a).toInt = a :=
  Int64.toInt_ofInt_of_le h.1 h.2

theorem Go.bmod_of_fits {a : Int} (h : Fits a) : a.bmod (2 ^ 64) = a :=
  Int.bmod_eq_of_le (by have := h.1; omega) (by have := h.2; omega)

theorem Go.Value.is_ofScalar {scalar : Scalar} (h : scalar.Fits) : (ofScalar scalar).Is scalar := by
  cases scalar with
  | int a => exact toInt_ofInt h
  | bool a => rfl

/-- A result that fits is the result of the operation that wraps around. -/
theorem Go.wrapping_of_unbounded {op : String} {first second : Int64} {c : Int}
    (h : unbounded op first.toInt second.toInt = some c) :
    ∃ word, wrapping op first second = some word ∧ (Fits c → word.toInt = c) := by
  have hdivisor (hzero : ¬second.toInt = 0) : second ≠ 0 := by
    rintro rfl
    exact hzero rfl
  unfold unbounded at h
  unfold wrapping
  split at h
  · cases h
    exact ⟨_, rfl, fun hfits => by rw [Int64.toInt_add, bmod_of_fits hfits]⟩
  · cases h
    exact ⟨_, rfl, fun hfits => by rw [Int64.toInt_sub, bmod_of_fits hfits]⟩
  · cases h
    exact ⟨_, rfl, fun hfits => by rw [Int64.toInt_mul, bmod_of_fits hfits]⟩
  · obtain ⟨hzero, h⟩ := Option.ite_none_left_eq_some.1 h
    cases h
    exact ⟨_, if_neg (hdivisor hzero), fun hfits => by rw [Int64.toInt_div, bmod_of_fits hfits]⟩
  · obtain ⟨hzero, h⟩ := Option.ite_none_left_eq_some.1 h
    cases h
    exact ⟨_, if_neg (hdivisor hzero), fun _ => Int64.toInt_mod _ _⟩
  · cases h

namespace BinaryOperator

variable {op : BinaryOperator} {a b c : Int}

/-- By how much Go misses the integer value of the operation: it rounds towards zero. -/
def excess : BinaryOperator → Int → Int → Int
  | divide, a, b => if 0 ≤ a ∨ b ∣ a then 0 else 1
  | modulo, a, b => if 0 ≤ a ∨ b ∣ a then 0 else -b
  | _, _, _ => 0

/-- What Go computes instead of the value of an operation. -/
def rounded (op : BinaryOperator) : Scalar → Scalar → Scalar → Scalar
  | .int a, .int b, .int c => .int (c + op.excess a b)
  | _, _, result => result

/-- The operation is no division of a negative integer that leaves something over. -/
def Even : BinaryOperator → Scalar → Scalar → Prop
  | divide, .int a, .int b | modulo, .int a, .int b => 0 ≤ a ∨ b ∣ a
  | _, _, _ => True

theorem rounded_eq_iff {left right result : Scalar} (h : op.apply left right = some result) :
    op.rounded left right result = result ↔ op.Even left right := by
  cases left with
  | bool _ => cases op <;> simp [rounded, Even]
  | int a =>
    cases right with
    | bool _ => cases op <;> simp [rounded, Even]
    | int b =>
      cases result with
      | bool _ =>
        cases op with
        | divide | modulo =>
          obtain ⟨-, h⟩ := Option.ite_none_right_eq_some.1 h
          cases h
        | _ => simp [rounded, Even]
      | int c =>
        cases op with
        | divide =>
          by_cases heven : 0 ≤ a ∨ b ∣ a
          · simp [rounded, Even, excess, heven]
          · have hoff : c + 1 ≠ c := by omega
            simp [rounded, Even, excess, heven, hoff]
        | modulo =>
          obtain ⟨hpositive, -⟩ := Option.ite_none_right_eq_some.1 h
          by_cases heven : 0 ≤ a ∨ b ∣ a
          · simp [rounded, Even, excess, heven]
          · have hoff : c + -b ≠ c := by omega
            simp [rounded, Even, excess, heven, hoff]
        | _ => simp [rounded, Even, excess]

theorem tdiv_eq (hb : 0 < b) : a.tdiv b = a.fdiv b + excess .divide a b := by
  rw [Int.tdiv_eq_ediv, Int.fdiv_eq_ediv_of_nonneg a (Int.le_of_lt hb), Int.sign_eq_one_of_pos hb]
  rfl

theorem tmod_eq (hb : 0 < b) : a.tmod b = a.fmod b + excess .modulo a b := by
  rw [Int.tmod_eq_emod, Int.fmod_eq_emod_of_nonneg a (Int.le_of_lt hb)]
  simp only [excess]
  split <;> omega

/-- Without bounds, Go gives the integer of the operation plus its excess. -/
theorem unbounded_goText (h : op.apply (.int a) (.int b) = some (.int c)) :
    unbounded op.goText a b = some (c + op.excess a b) := by
  cases op with
  | divide =>
    obtain ⟨hpositive, hc⟩ := Option.ite_none_right_eq_some.1 h
    cases hc
    rw [← tdiv_eq hpositive]
    exact if_neg (by omega)
  | modulo =>
    obtain ⟨hpositive, hc⟩ := Option.ite_none_right_eq_some.1 h
    cases hc
    rw [← tmod_eq hpositive]
    exact if_neg (by omega)
  | add | subtract | multiply =>
    cases h
    simp [excess, goText, unbounded]
  | _ => cases h

/-- The excess does not lead out of the range of integers. -/
theorem fits_excess (h : op.apply (.int a) (.int b) = some (.int c)) (hb : Fits b) (hc : Fits c) :
    Fits (c + op.excess a b) := by
  by_cases hzero : op.excess a b = 0
  · simpa [hzero] using hc
  · cases op with
    | divide =>
      obtain ⟨hpositive, hquotient⟩ := Option.ite_none_right_eq_some.1 h
      cases hquotient
      have huneven : ¬(0 ≤ a ∨ b ∣ a) := fun heven => hzero (if_pos heven)
      have hnegative : a.fdiv b < 0 := Int.fdiv_neg_of_neg_of_pos (by omega) hpositive
      have hexcess : excess .divide a b = 1 := if_neg huneven
      rw [hexcess]
      exact ⟨by have := hc.1; omega, by omega⟩
    | modulo =>
      obtain ⟨hpositive, hremainder⟩ := Option.ite_none_right_eq_some.1 h
      cases hremainder
      have huneven : ¬(0 ≤ a ∨ b ∣ a) := fun heven => hzero (if_pos heven)
      have hlow : 0 ≤ a.fmod b := Int.fmod_nonneg_of_pos a hpositive
      have hhigh : a.fmod b < b := Int.fmod_lt_of_pos a hpositive
      have hexcess : excess .modulo a b = -b := if_neg huneven
      rw [hexcess]
      exact ⟨by have := hb.2; omega, by omega⟩
    | _ => exact absurd rfl hzero

/-- The comparisons of Go and TLA+ are the same. -/
theorem compared_goText {result : Bool} (h : op.apply (.int a) (.int b) = some (.bool result)) :
    (unbounded op.goText a b = none ∧ ∀ left right, wrapping op.goText left right = none) ∧
      compared op.goText a b = some result := by
  cases op with
  | add | subtract | multiply | and | or => cases h
  | divide | modulo =>
    obtain ⟨-, h⟩ := Option.ite_none_right_eq_some.1 h
    cases h
  | _ =>
    cases h
    exact ⟨⟨rfl, fun _ _ => rfl⟩, rfl⟩

end BinaryOperator

namespace Go.Value

variable {first second : Value} {a b c : Int} {op : BinaryOperator}

theorem toInt64?_of_is {value : Value} (h : value.Is (.int a)) (hfits : Fits a) :
    ∃ word, value.toInt64? = some word ∧ word.toInt = a := by
  cases value with
  | constant b =>
    obtain rfl : b = a := h
    exact ⟨.ofInt b, if_pos hfits, toInt_ofInt hfits⟩
  | int word => exact ⟨word, rfl, h⟩
  | bool b => exact h.elim

theorem eq_of_bool {value : Value} {b : Bool} (h : value.Is (.bool b)) : value = .bool b := by
  cases value with
  | bool a => exact congrArg Value.bool h
  | _ => exact h.elim

theorem is_ofKind (kind : Kind) : (ofKind kind).Is kind.sample := by
  cases kind <;> rfl

@[simp]
theorem kind_ofKind (kind : Kind) : (ofKind kind).kind = kind := by
  cases kind <;> rfl

/-- An operation on integers, unless both are constants, is one on 64 bits. -/
theorem binary_eq_ofInts (op : String) (hfirst : first.Is (.int a)) (hsecond : second.Is (.int b)) :
    first.binary op second =
      if first.kind.isConstant && second.kind.isConstant then
        ((unbounded op a b).map constant).or ((compared op a b).map bool)
      else ofInts op first second := by
  cases first with
  | bool _ => exact hfirst.elim
  | constant _ =>
    cases second with
    | bool _ => exact hsecond.elim
    | int _ => rfl
    | constant _ =>
      cases hfirst
      cases hsecond
      rfl
  | int _ =>
    cases second with
    | bool _ => exact hsecond.elim
    | int _ | constant _ => rfl

private theorem binary_int (hfirst : first.Is (.int a)) (hsecond : second.Is (.int b))
    (ha : Fits a) (hb : Fits b) (h : op.apply (.int a) (.int b) = some (.int c)) :
    ∃ result, first.binary op.goText second = some result ∧
      result.kind = (Scalar.int (c + op.excess a b)).kind
        (first.kind.isConstant && second.kind.isConstant) ∧
      (Fits (c + op.excess a b) → result.Is (.int (c + op.excess a b))) := by
  rw [binary_eq_ofInts op.goText hfirst hsecond]
  have hunbounded := BinaryOperator.unbounded_goText h
  split
  · rename_i hconstants
    exact ⟨.constant _, by rw [hunbounded]; rfl, by rw [hconstants]; rfl, fun _ => rfl⟩
  · rename_i hconstants
    obtain ⟨left, hleft, rfl⟩ := toInt64?_of_is hfirst ha
    obtain ⟨right, hright, rfl⟩ := toInt64?_of_is hsecond hb
    obtain ⟨word, hword, hvalue⟩ := wrapping_of_unbounded hunbounded
    exact ⟨.int word, by simp [ofInts, hleft, hright, hword],
      by rw [Bool.eq_false_iff.2 hconstants]; rfl, hvalue⟩

private theorem binary_comparison {result : Bool} (hfirst : first.Is (.int a))
    (hsecond : second.Is (.int b)) (ha : Fits a) (hb : Fits b)
    (h : op.apply (.int a) (.int b) = some (.bool result)) :
    first.binary op.goText second = some (.bool result) := by
  obtain ⟨⟨hunbounded, hwrapping⟩, hcompared⟩ := BinaryOperator.compared_goText h
  rw [binary_eq_ofInts op.goText hfirst hsecond]
  split
  · rw [hunbounded, hcompared]
    rfl
  · obtain ⟨left, hleft, rfl⟩ := toInt64?_of_is hfirst ha
    obtain ⟨right, hright, rfl⟩ := toInt64?_of_is hsecond hb
    simp [ofInts, hleft, hright, hwrapping, hcompared]

private theorem binary_bools {a b : Bool} {result : Scalar}
    (h : op.apply (.bool a) (.bool b) = some result) :
    ∃ r, result = .bool r ∧ (bool a).binary op.goText (bool b) = some (.bool r) := by
  cases op with
  | equal | notEqual | and | or =>
    cases h
    exact ⟨_, rfl, rfl⟩
  | _ => cases h

variable {left right scalar result : Scalar}

/-- An operation on values that stand for those of TLA+. -/
theorem binary_goText (hfirst : first.Is left) (hsecond : second.Is right) (hleft : left.Fits)
    (hright : right.Fits) (h : op.apply left right = some result) :
    ∃ go, first.binary op.goText second = some go ∧
      go.kind = (op.rounded left right result).kind
        (first.kind.isConstant && second.kind.isConstant) ∧
      ((op.rounded left right result).Fits → go.Is (op.rounded left right result)) := by
  cases left with
  | int a =>
    cases right with
    | int b =>
      cases result with
      | int c => exact binary_int hfirst hsecond hleft hright h
      | bool r => exact ⟨_, binary_comparison hfirst hsecond hleft hright h, rfl, fun _ => rfl⟩
    | bool b => cases op <;> cases h
  | bool a =>
    cases right with
    | int b => cases op <;> cases h
    | bool b =>
      rw [eq_of_bool hfirst, eq_of_bool hsecond]
      obtain ⟨r, rfl, hgo⟩ := binary_bools h
      exact ⟨_, hgo, rfl, fun _ => rfl⟩

/-- Conjunctions and disjunctions are decided by the same left operands. -/
theorem decides?_goText {value : Value} (h : value.Is scalar) :
    value.decides? op.goText = op.decides? scalar := by
  cases scalar with
  | int a =>
    rw [op.decides?_int a]
    cases value with
    | bool _ => exact h.elim
    | _ => rfl
  | bool a =>
    rw [eq_of_bool h]
    cases a <;> cases op <;> rfl

theorem unary_goText {op : UnaryOperator} {value : Value} (hvalue : value.Is scalar)
    (h : op.apply scalar = some result) :
    ∃ go, value.unary op.goText = some go ∧ go.kind = result.kind value.kind.isConstant ∧
      (result.Fits → go.Is result) := by
  cases op with
  | not =>
    cases scalar with
    | int _ => cases h
    | bool a =>
      cases h
      rw [eq_of_bool hvalue]
      exact ⟨_, rfl, rfl, fun _ => rfl⟩
  | negate =>
    cases scalar with
    | bool _ => cases h
    | int a =>
      cases h
      cases value with
      | bool _ => exact hvalue.elim
      | constant b =>
        cases hvalue
        exact ⟨_, rfl, rfl, fun _ => rfl⟩
      | int word =>
        cases hvalue
        refine ⟨_, rfl, rfl, fun hfits => ?_⟩
        have hnegated : (-word).toInt = -word.toInt := by rw [Int64.toInt_neg, bmod_of_fits hfits]
        exact hnegated

end Go.Value

theorem Go.Value.Is.unique {value : Value} {first second : Scalar} (hfirst : value.Is first)
    (hsecond : value.Is second) : first = second := by
  cases value <;> cases first <;> cases second <;> simp_all [Value.Is]

namespace BinaryOperator

variable {op : BinaryOperator} {left right result : Scalar}

/-- What is known of the operands is enough to tell the kind of the result. -/
theorem apply_sample (h : op.apply left right = some result) (first second : Bool) :
    (op.apply (left.kind first).sample (right.kind second).sample).map
        (·.kind ((left.kind first).isConstant && (right.kind second).isConstant)) =
      some (result.kind ((left.kind first).isConstant && (right.kind second).isConstant)) := by
  cases left with
  | bool a =>
    cases right with
    | int b => cases op <;> cases h
    | bool b =>
      cases op with
      | equal | notEqual | and | or =>
        cases h
        rfl
      | _ => cases h
  | int a =>
    cases right with
    | bool b => cases op <;> cases h
    | int b =>
      cases op with
      | divide | modulo =>
        obtain ⟨hpositive, h⟩ := Option.ite_none_right_eq_some.1 h
        cases h
        cases first <;> cases second <;>
          simp [apply, Scalar.kind, Kind.sample, hpositive, Kind.isConstant]
      | and | or => cases h
      | _ =>
        cases h
        cases first <;> cases second <;> rfl

theorem of_decides {decision : Bool} (h : op.decides? left = some decision) (known : Bool) :
    left.kind known = .bool ∧ ∃ r, op.apply (.bool true) (.bool true) = some (.bool r) := by
  cases left with
  | int _ => cases op <;> cases h
  | bool _ =>
    cases op with
    | and | or => exact ⟨rfl, _, rfl⟩
    | _ => cases h

theorem apply_of_decides {decision : Bool} (h : op.decides? left = some decision)
    (happly : op.apply left right = some result) :
    (∃ b, right = .bool b) ∧ result = .bool decision := by
  cases left with
  | int _ => cases op <;> cases h
  | bool a =>
    cases right with
    | int _ => cases op <;> cases happly
    | bool b =>
      refine ⟨⟨b, rfl⟩, ?_⟩
      cases a <;> cases op <;> cases h <;> cases happly <;> rfl

theorem fits_rounded (h : op.apply left right = some result) (hright : right.Fits)
    (hresult : result.Fits) : (op.rounded left right result).Fits := by
  cases left with
  | bool _ => exact hresult
  | int _ =>
    cases right with
    | bool _ => exact hresult
    | int _ =>
      cases result with
      | bool _ => trivial
      | int _ => exact fits_excess h hright hresult

theorem kind_rounded (op : BinaryOperator) (left right result : Scalar) :
    (op.rounded left right result).kind false = result.kind false := by
  cases left <;> cases right <;> cases result <;> rfl

end BinaryOperator

theorem UnaryOperator.apply_sample {op : UnaryOperator} {value result : Scalar}
    (h : op.apply value = some result) (known : Bool) :
    (op.apply (value.kind known).sample).map (·.kind (value.kind known).isConstant) =
      some (result.kind (value.kind known).isConstant) := by
  cases value <;> cases op <;> cases h <;> cases known <;> rfl

theorem Scalar.eq_of_kind_constant {scalar : Scalar} {known : Bool} {n : Int}
    (h : scalar.kind known = .constant n) : known = true ∧ scalar = .int n := by
  cases scalar with
  | bool _ => cases h
  | int a =>
    cases known with
    | false => cases h
    | true =>
      cases h
      exact ⟨rfl, rfl⟩

end PlusCalGo
