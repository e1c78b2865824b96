import PlusCalGo.Proofs.Expressions.Operations
import PlusCalGo.Proofs.Expressions.Rereading

/-!
# Arithmetic

The values of integer and boolean expressions in TLA+, and in Go those of the trees they are printed
as. They are the same as long as every division is even.
-/

namespace PlusCalGo

open Go

/-! ## Values -/

namespace Expression

section Values

variable (values : String → Scalar)

/-- The kind of an expression, if it is well-typed and no constant divisor in it is negative or
zero. -/
def kind : Expression → Option Kind
  | number _ value => some (.constant value.toInt)
  | bool .. => some .bool
  | identifier _ name => some ((values name).kind false)
  | binary _ op lhs rhs => do
    let left ← lhs.kind
    let right ← rhs.kind
    (op.apply left.sample right.sample).map (·.kind (left.isConstant && right.isConstant))
  | unary _ op operand => do
    let kind ← operand.kind
    (op.apply kind.sample).map (·.kind kind.isConstant)
  | string .. | index .. | tuple .. | ifElse .. | apply .. => none

/-- The value of an expression under values of its identifiers. A right operand that decides nothing
needs no value, but it has to be well-typed. -/
def value : Expression → Option Scalar
  | number _ value => some (.int value.toInt)
  | bool _ value => some (.bool value)
  | identifier _ name => some (values name)
  | binary _ op lhs rhs => do
    let left ← lhs.value
    match op.decides? left with
    | some result => if rhs.kind values = some .bool then some (.bool result) else none
    | none => op.apply left (← rhs.value)
  | unary _ op operand => do op.apply (← operand.value)
  | string .. | index .. | tuple .. | ifElse .. | apply .. => none

end Values

/-- An expression and the operands in it. -/
def parts : Expression → List Expression
  | binary uid op lhs rhs => binary uid op lhs rhs :: (lhs.parts ++ rhs.parts)
  | unary uid op operand => unary uid op operand :: operand.parts
  | expression => [expression]

end Expression

namespace Go.Term

section Values

variable (scope : String → Value)

/-- The kind of an expression that compiles. Operations on constants are computed. -/
def kind : Term → Option Kind
  | int value => some (.constant value)
  | name word => some (if word = "true" ∨ word = "false" then .bool else (scope word).kind)
  | unary op operand => do
    let result ← (Value.ofKind (← operand.kind)).unary op
    pure result.kind
  | binary op lhs rhs => do
    let result ← (Value.ofKind (← lhs.kind)).binary op (.ofKind (← rhs.kind))
    pure result.kind
  | text _ | index .. | slice .. | call .. | ints _ | choose .. => none

/-- The value of an expression under values of the variables in scope. -/
def value : Term → Option Value
  | int value => some (.constant value)
  | name word =>
    some (if word = "true" then .bool true else if word = "false" then .bool false else scope word)
  | unary op operand => do (← operand.value).unary op
  | binary op lhs rhs => do
    let left ← lhs.value
    match left.decides? op with
    | some result => if rhs.kind scope = some .bool then some (.bool result) else none
    | none => left.binary op (← rhs.value)
  | text _ | index .. | slice .. | call .. | ints _ | choose .. => none

end Values

end Go.Term

namespace Expression

variable {definitions : Definitions} {values : String → Scalar} {expression lhs rhs : Expression}

/-- The kind of an expression is that of its value. -/
theorem kind_of_value (expression : Expression) {result : Scalar}
    (h : expression.value values = some result) :
    ∃ known, expression.kind values = some (result.kind known) := by
  cases expression with
  | number uid value =>
    cases h
    exact ⟨true, rfl⟩
  | bool uid value =>
    cases h
    exact ⟨true, rfl⟩
  | identifier uid name =>
    cases h
    exact ⟨false, rfl⟩
  | binary uid op lhs rhs =>
    obtain ⟨left, hleft, h⟩ := Option.bind_eq_some_iff.1 h
    obtain ⟨first, hfirst⟩ := kind_of_value lhs hleft
    split at h
    · rename_i decision hdecides
      obtain ⟨hrhs, h⟩ := Option.ite_none_right_eq_some.1 h
      cases h
      obtain ⟨hlhs, r, happly⟩ := BinaryOperator.of_decides hdecides first
      refine ⟨true, ?_⟩
      rw [kind, hfirst, hlhs, hrhs]
      exact congrArg (Option.map _) happly
    · obtain ⟨right, hright, h⟩ := Option.bind_eq_some_iff.1 h
      obtain ⟨second, hsecond⟩ := kind_of_value rhs hright
      refine ⟨(left.kind first).isConstant && (right.kind second).isConstant, ?_⟩
      rw [kind, hfirst, hsecond]
      exact BinaryOperator.apply_sample h first second
  | unary uid op operand =>
    obtain ⟨value, hvalue, h⟩ := Option.bind_eq_some_iff.1 h
    obtain ⟨known, hknown⟩ := kind_of_value operand hvalue
    refine ⟨(value.kind known).isConstant, ?_⟩
    rw [kind, hknown]
    exact UnaryOperator.apply_sample h known
  | _ => cases h

theorem value_binary {uid : Uid} {op : BinaryOperator} {left : Scalar}
    (hleft : lhs.value values = some left) (hdecides : op.decides? left = none) :
    (binary uid op lhs rhs).value values = (rhs.value values).bind (op.apply left) := by
  rw [value, hleft]
  simp [hdecides]

/-- Where both operands have values, their order does not matter. -/
theorem value_of_operands {uid : Uid} {op : BinaryOperator} {left right result : Scalar}
    (hleft : lhs.value values = some left) (hright : rhs.value values = some right)
    (happly : op.apply left right = some result) :
    (binary uid op lhs rhs).value values = some result := by
  cases hdecides : op.decides? left with
  | none => rw [value_binary hleft hdecides, hright, Option.bind_some, happly]
  | some decision =>
    obtain ⟨known, hkind⟩ := kind_of_value rhs hright
    obtain ⟨⟨b, rfl⟩, rfl⟩ := BinaryOperator.apply_of_decides hdecides happly
    rw [value, hleft]
    simp [hdecides, hkind, Scalar.kind]

theorem value_of_kind_constant (expression : Expression) {n : Int}
    (h : expression.kind values = some (.constant n)) :
    expression.value values = some (.int n) := by
  cases expression with
  | number uid value =>
    cases h
    rfl
  | identifier uid name =>
    cases (Scalar.eq_of_kind_constant (Option.some.inj h)).1
  | binary uid op lhs rhs =>
    obtain ⟨left, hleft, h⟩ := Option.bind_eq_some_iff.1 h
    obtain ⟨right, hright, h⟩ := Option.bind_eq_some_iff.1 h
    obtain ⟨result, happly, h⟩ := Option.map_eq_some_iff.1 h
    obtain ⟨hconstant, rfl⟩ := Scalar.eq_of_kind_constant h
    obtain ⟨⟨a, rfl⟩, b, rfl⟩ : (∃ a, left = .constant a) ∧ ∃ b, right = .constant b := by
      cases left <;> cases right <;> simp [Kind.isConstant] at hconstant ⊢
    rw [value_binary (value_of_kind_constant lhs hleft) (op.decides?_int a),
      value_of_kind_constant rhs hright]
    exact happly
  | unary uid op operand =>
    obtain ⟨kind, hkind, h⟩ := Option.bind_eq_some_iff.1 h
    obtain ⟨result, happly, h⟩ := Option.map_eq_some_iff.1 h
    obtain ⟨hconstant, rfl⟩ := Scalar.eq_of_kind_constant h
    obtain ⟨a, rfl⟩ : ∃ a, kind = .constant a := by
      cases kind <;> simp [Kind.isConstant] at hconstant ⊢
    rw [value, value_of_kind_constant operand hkind]
    exact happly
  | _ => cases h

end Expression

/-! ## Trees -/

namespace Expression

section Trees

variable (definitions : Definitions) (values : String → Scalar)

/-- The Go value of the tree of an expression. Names stand for variables. -/
def goValue (expression : Expression) : Option Value :=
  (expression.term definitions).value fun name => .ofScalar (values name)

/-- Where the expression has a value, Go computes it. -/
def Keeps (expression : Expression) : Prop :=
  ∀ result, expression.value values = some result →
    ∃ go, expression.goValue definitions values = some go ∧ go.Is result

/-- The expression is no division of a negative integer that leaves something over. -/
def DividesEvenly : Expression → Prop
  | binary _ op lhs rhs => ∀ left right result, lhs.value values = some left →
      rhs.value values = some right → op.apply left right = some result → op.Even left right
  | _ => True

/-- The values of all parts fit into 64 bits, and no name means a boolean in Go. -/
structure Representable (expression : Expression) : Prop where
  fits : ∀ part ∈ expression.parts, ∀ result ∈ part.value values, result.Fits
  names : ∀ uid, identifier uid "true" ∉ expression.parts ∧
    identifier uid "false" ∉ expression.parts

end Trees

variable {definitions : Definitions} {values : String → Scalar} {uid : Uid} {op : BinaryOperator}
  {expression part lhs rhs operand : Expression}

theorem mem_parts (expression : Expression) : expression ∈ expression.parts := by
  cases expression <;> simp [parts]

/-- The parts of a part are parts. -/
theorem parts_subset (expression : Expression) (h : part ∈ expression.parts) :
    part.parts ⊆ expression.parts := by
  cases expression with
  | binary uid op lhs rhs =>
    rw [parts, List.mem_cons, List.mem_append] at h
    rcases h with rfl | h | h
    · exact fun _ hinner => hinner
    · exact fun inner hinner => by simp [parts, parts_subset lhs h hinner]
    · exact fun inner hinner => by simp [parts, parts_subset rhs h hinner]
  | unary uid op operand =>
    rcases List.mem_cons.1 h with rfl | h
    · exact fun _ hinner => hinner
    · exact fun inner hinner => by simp [parts, parts_subset operand h hinner]
  | _ =>
    cases List.mem_singleton.1 h
    exact fun _ hinner => hinner

theorem operands_mem_parts : lhs ∈ (binary uid op lhs rhs).parts ∧
    rhs ∈ (binary uid op lhs rhs).parts := by
  simp [parts, mem_parts]

namespace Representable

theorem of_parts (h : expression.Representable values)
    (hparts : part.parts ⊆ expression.parts) : part.Representable values where
  fits inner hinner := h.fits inner (hparts hinner)
  names uid :=
    ⟨fun hmem => (h.names uid).1 (hparts hmem), fun hmem => (h.names uid).2 (hparts hmem)⟩

theorem fits_sample (h : expression.Representable values) {kind : Kind}
    (hkind : expression.kind values = some kind) : kind.sample.Fits := by
  cases kind with
  | constant n => exact h.fits _ (mem_parts _) _ (value_of_kind_constant expression hkind)
  | int =>
    have hone : Fits 1 := by decide
    exact hone
  | bool => trivial

end Representable

theorem value_numberTerm (value : Int) (scope : String → Value) :
    (numberTerm value).value scope = some (.constant value) ∧
      (numberTerm value).kind scope = some (.constant value) := by
  unfold numberTerm
  split
  · have hvalue : -(value.natAbs : Int) = value := by omega
    exact ⟨congrArg (fun n => some (Value.constant n)) hvalue,
      congrArg (fun n => some (Kind.constant n)) hvalue⟩
  · have hvalue : (value.natAbs : Int) = value := by omega
    exact ⟨congrArg (fun n => some (Value.constant n)) hvalue,
      congrArg (fun n => some (Kind.constant n)) hvalue⟩

/-- The Go compiler sees the kinds that the expressions have. -/
theorem kind_term (expression : Expression) (h : expression.Representable values)
    (heven : ∀ part ∈ expression.parts, part.DividesEvenly values) {kind : Kind}
    (hkind : expression.kind values = some kind) :
    (expression.term definitions).kind (fun name => .ofScalar (values name)) = some kind := by
  cases expression with
  | number uid value =>
    cases hkind
    exact (value_numberTerm value.toInt _).2
  | bool uid value =>
    cases hkind
    cases value <;> rfl
  | identifier uid name =>
    cases hkind
    have hnames := h.names uid
    simp only [parts, List.mem_singleton, identifier.injEq, true_and] at hnames
    rw [term, Term.kind, if_neg (by rintro (rfl | rfl) <;> simp at hnames)]
    cases values name <;> rfl
  | binary uid op lhs rhs =>
    obtain ⟨left, hleft, hkind⟩ := Option.bind_eq_some_iff.1 hkind
    obtain ⟨right, hright, hkind⟩ := Option.bind_eq_some_iff.1 hkind
    obtain ⟨result, happly, rfl⟩ := Option.map_eq_some_iff.1 hkind
    have hlhs : lhs.Representable values := h.of_parts (by simp +contextual [parts])
    have hrhs : rhs.Representable values := h.of_parts (by simp +contextual [parts])
    have hfirst := kind_term lhs hlhs (fun part hpart => heven part (by simp [parts, hpart])) hleft
    have hsecond :=
      kind_term rhs hrhs (fun part hpart => heven part (by simp [parts, hpart])) hright
    obtain ⟨go, hgo, hgokind, -⟩ := Value.binary_goText (Value.is_ofKind left)
      (Value.is_ofKind right) (hlhs.fits_sample hleft) (hrhs.fits_sample hright) happly
    rw [Value.kind_ofKind, Value.kind_ofKind] at hgokind
    have hrounded : (op.rounded left.sample right.sample result).kind
        (left.isConstant && right.isConstant) =
          result.kind (left.isConstant && right.isConstant) := by
      cases hconstant : left.isConstant && right.isConstant with
      | false => exact op.kind_rounded _ _ _
      | true =>
        obtain ⟨⟨a, rfl⟩, b, rfl⟩ : (∃ a, left = .constant a) ∧ ∃ b, right = .constant b := by
          cases left <;> cases right <;> simp [Kind.isConstant] at hconstant ⊢
        have hdivides := heven _ (mem_parts _) _ _ result (value_of_kind_constant lhs hleft)
          (value_of_kind_constant rhs hright) happly
        exact congrArg _ ((BinaryOperator.rounded_eq_iff happly).2 hdivides)
    rw [term, Term.kind, hfirst, hsecond, ← hrounded, ← hgokind]
    simp [hgo]
  | unary uid op operand =>
    obtain ⟨inner, hinner, hkind⟩ := Option.bind_eq_some_iff.1 hkind
    obtain ⟨result, happly, rfl⟩ := Option.map_eq_some_iff.1 hkind
    have hoperand := kind_term operand (h.of_parts (by simp +contextual [parts]))
      (fun part hpart => heven part (by simp [parts, hpart])) hinner
    obtain ⟨go, hgo, hgokind, -⟩ := Value.unary_goText (Value.is_ofKind inner) happly
    rw [Value.kind_ofKind] at hgokind
    rw [term, Term.kind, hoperand, ← hgokind]
    simp [hgo]
  | _ => cases hkind

/-- Go rounds the operations on operands that keep their values. -/
theorem goValue_binary (h : (binary uid op lhs rhs).Representable values)
    (hlhs : lhs.Keeps definitions values) (hrhs : rhs.Keeps definitions values)
    {left right result : Scalar} (hleft : lhs.value values = some left)
    (hright : rhs.value values = some right) (hdecides : op.decides? left = none)
    (happly : op.apply left right = some result) :
    ∃ go, (binary uid op lhs rhs).goValue definitions values = some go ∧
      go.Is (op.rounded left right result) := by
  obtain ⟨first, hfirst, hfirstIs⟩ := hlhs left hleft
  obtain ⟨second, hsecond, hsecondIs⟩ := hrhs right hright
  have hleftFits := h.fits lhs operands_mem_parts.1 left hleft
  have hrightFits := h.fits rhs operands_mem_parts.2 right hright
  have hresultFits := h.fits _ (mem_parts _) result (value_of_operands hleft hright happly)
  obtain ⟨go, hgo, -, hgoIs⟩ :=
    Value.binary_goText hfirstIs hsecondIs hleftFits hrightFits happly
  have hundecided : first.decides? op.goText = none := by
    rw [Value.decides?_goText hfirstIs, hdecides]
  refine ⟨go, ?_, hgoIs (BinaryOperator.fits_rounded happly hrightFits hresultFits)⟩
  unfold goValue at hfirst hsecond ⊢
  rw [term, Term.value, hfirst, hsecond]
  simp [hundecided, hgo]

/-- A left operand that decides leaves the right one unevaluated. -/
theorem goValue_decided (hlhs : lhs.Keeps definitions values) {left : Scalar} {decision : Bool}
    (hleft : lhs.value values = some left) (hdecides : op.decides? left = some decision)
    (hrhs : (rhs.term definitions).kind (fun name => .ofScalar (values name)) = some .bool) :
    (binary uid op lhs rhs).goValue definitions values = some (.bool decision) := by
  obtain ⟨first, hfirst, hfirstIs⟩ := hlhs left hleft
  have hdecided : first.decides? op.goText = some decision := by
    rw [Value.decides?_goText hfirstIs, hdecides]
  unfold goValue at hfirst ⊢
  rw [term, Term.value, hfirst]
  simp [hdecided, hrhs]

theorem keeps_binary (h : (binary uid op lhs rhs).Representable values)
    (heven : ∀ part ∈ (binary uid op lhs rhs).parts, part.DividesEvenly values)
    (hlhs : lhs.Keeps definitions values) (hrhs : rhs.Keeps definitions values) :
    (binary uid op lhs rhs).Keeps definitions values := by
  intro result hresult
  have hvalue := hresult
  obtain ⟨left, hleft, hvalue⟩ := Option.bind_eq_some_iff.1 hvalue
  have hright : rhs.Representable values := h.of_parts (by simp +contextual [parts])
  split at hvalue
  · rename_i decision hdecides
    obtain ⟨hkind, hvalue⟩ := Option.ite_none_right_eq_some.1 hvalue
    cases hvalue
    have hterm : (rhs.term definitions).kind _ = some .bool :=
      kind_term rhs hright (fun part hpart => heven part (by simp [parts, hpart])) hkind
    exact ⟨_, goValue_decided hlhs hleft hdecides hterm, rfl⟩
  · rename_i hdecides
    obtain ⟨right, hsome, happly⟩ := Option.bind_eq_some_iff.1 hvalue
    obtain ⟨go, hgo, hgoIs⟩ := goValue_binary h hlhs hrhs hleft hsome hdecides happly
    rw [(BinaryOperator.rounded_eq_iff happly).2 (heven _ (mem_parts _) _ _ _ hleft hsome happly)]
      at hgoIs
    exact ⟨go, hgo, hgoIs⟩

theorem keeps_unary {op : UnaryOperator} (h : (unary uid op operand).Representable values)
    (hoperand : operand.Keeps definitions values) :
    (unary uid op operand).Keeps definitions values := by
  intro result hresult
  have hvalue := hresult
  obtain ⟨inner, hinner, happly⟩ := Option.bind_eq_some_iff.1 hvalue
  obtain ⟨first, hfirst, hfirstIs⟩ := hoperand inner hinner
  obtain ⟨go, hgo, -, hgoIs⟩ := Value.unary_goText hfirstIs happly
  refine ⟨go, ?_, hgoIs (h.fits _ (mem_parts _) _ hresult)⟩
  unfold goValue at hfirst ⊢
  rw [term, Term.value, hfirst]
  exact hgo

theorem keeps_leaf (h : expression.Representable values) (hleaf : expression.parts = [expression]) :
    expression.Keeps definitions values := by
  intro result hresult
  cases expression with
  | number uid value =>
    cases hresult
    exact ⟨_, (value_numberTerm value.toInt _).1, rfl⟩
  | bool uid value =>
    cases hresult
    cases value <;> exact ⟨_, rfl, rfl⟩
  | identifier uid name =>
    cases hresult
    have hnames := h.names uid
    simp only [parts, List.mem_singleton, identifier.injEq, true_and] at hnames
    refine ⟨.ofScalar (values name), ?_, ?_⟩
    · simp [goValue, term, Term.value, Ne.symm hnames.1, Ne.symm hnames.2]
    · exact Value.is_ofScalar (h.fits _ (mem_parts _) _ rfl)
  | binary uid op lhs rhs => simp [parts, List.ne_nil_of_mem (mem_parts _)] at hleaf
  | unary uid op operand => simp [parts, List.ne_nil_of_mem (mem_parts _)] at hleaf
  | _ => cases hresult

/-- Where all divisions are even, every part keeps its value. -/
theorem parts_keep (expression : Expression) (h : expression.Representable values)
    (heven : ∀ part ∈ expression.parts, part.DividesEvenly values) :
    ∀ part ∈ expression.parts, part.Keeps definitions values := by
  cases expression with
  | binary uid op lhs rhs =>
    have hlhs := parts_keep lhs (h.of_parts (by simp +contextual [parts]))
      (fun part hpart => heven part (by simp [parts, hpart]))
    have hrhs := parts_keep rhs (h.of_parts (by simp +contextual [parts]))
      (fun part hpart => heven part (by simp [parts, hpart]))
    rw [parts, List.forall_mem_cons, List.forall_mem_append]
    exact ⟨keeps_binary h heven (hlhs lhs (mem_parts lhs)) (hrhs rhs (mem_parts rhs)), hlhs, hrhs⟩
  | unary uid op operand =>
    have hoperand := parts_keep operand (h.of_parts (by simp +contextual [parts]))
      (fun part hpart => heven part (by simp [parts, hpart]))
    rw [parts, List.forall_mem_cons]
    exact ⟨keeps_unary h (hoperand operand (mem_parts operand)), hoperand⟩
  | _ => exact List.forall_mem_singleton.2 (keeps_leaf h rfl)

/-- A division whose value is kept together with those of its operands is even. -/
theorem dividesEvenly_of_keeps (h : (binary uid op lhs rhs).Representable values)
    (hlhs : lhs.Keeps definitions values) (hrhs : rhs.Keeps definitions values)
    (hwhole : (binary uid op lhs rhs).Keeps definitions values) :
    (binary uid op lhs rhs).DividesEvenly values := by
  intro left right result hleft hright happly
  cases left with
  | bool a => cases op <;> trivial
  | int a =>
    obtain ⟨go, hgo, hrounded⟩ :=
      goValue_binary h hlhs hrhs hleft hright (op.decides?_int a) happly
    obtain ⟨_, hsame, hkept⟩ := hwhole result (value_of_operands hleft hright happly)
    cases Option.some.inj (hgo.symm.trans hsame)
    exact (BinaryOperator.rounded_eq_iff happly).1 (hrounded.unique hkept)

/-- Expressions of a kind are printed. -/
theorem toGo_of_kind (expression : Expression) {kind : Kind}
    (h : expression.kind values = some kind) : ∃ text, expression.toGo definitions = .ok text := by
  cases expression with
  | number | bool | identifier => exact ⟨_, rfl⟩
  | binary uid op lhs rhs =>
    obtain ⟨left, hleft, h⟩ := Option.bind_eq_some_iff.1 h
    obtain ⟨right, hright, h⟩ := Option.bind_eq_some_iff.1 h
    obtain ⟨first, hfirst⟩ := toGo_of_kind lhs hleft
    obtain ⟨second, hsecond⟩ := toGo_of_kind rhs hright
    exact ⟨_, by rw [toGo, hfirst, hsecond]; rfl⟩
  | unary uid op operand =>
    obtain ⟨inner, hinner, h⟩ := Option.bind_eq_some_iff.1 h
    obtain ⟨text, htext⟩ := toGo_of_kind operand hinner
    exact ⟨_, by rw [toGo, htext]; rfl⟩
  | _ => cases h

variable (definitions) in
/-- An expression with a value is printed, and read as its tree. All parts keep their values in Go
if and only if every division in it is even: the quotient of a negative integer that leaves
something over is too large by one, and its remainder too small by the divisor. -/
theorem toGo_value {result : Scalar} (hvalue : expression.value values = some result)
    (h : expression.Representable values) :
    ∃ text, expression.toGo definitions = .ok text ∧
      (expression.Printable definitions → read text = some (expression.term definitions)) ∧
      ((∀ part ∈ expression.parts, part.Keeps definitions values) ↔
        ∀ part ∈ expression.parts, part.DividesEvenly values) ∧
      ∀ uid op lhs rhs, binary uid op lhs rhs ∈ expression.parts →
        lhs.Keeps definitions values → rhs.Keeps definitions values →
        ∀ a b c, lhs.value values = some (.int a) → rhs.value values = some (.int b) →
          op.apply (.int a) (.int b) = some (.int c) →
          ∃ go, (binary uid op lhs rhs).goValue definitions values = some go ∧
            go.Is (.int (c + op.excess a b)) := by
  obtain ⟨known, hkind⟩ := kind_of_value expression hvalue
  obtain ⟨text, htext⟩ := toGo_of_kind expression hkind
  refine ⟨text, htext, fun hprintable => (prints_toGo expression hprintable htext).read,
    ⟨?_, ?_⟩, ?_⟩
  · intro hkeeps part hmem
    cases part with
    | binary uid op lhs rhs =>
      have hsubset := parts_subset expression hmem
      exact dividesEvenly_of_keeps (h.of_parts hsubset)
        (hkeeps lhs (hsubset operands_mem_parts.1)) (hkeeps rhs (hsubset operands_mem_parts.2))
        (hkeeps _ hmem)
    | _ => trivial
  · exact parts_keep expression h
  · intro uid op lhs rhs hmem hlhs hrhs a b c hleft hright happly
    exact goValue_binary (h.of_parts (parts_subset expression hmem)) hlhs hrhs hleft hright
      (op.decides?_int a) happly

/-- Seven halves are less than seven. -/
theorem toGo_value_half :
    let half := binary ⟨1⟩ .divide (identifier ⟨2⟩ "x") (number ⟨3⟩ 2)
    let compared := binary ⟨4⟩ .lessThan half (identifier ⟨5⟩ "x")
    let values := fun _ : String => Scalar.int 7
    (compared.value values = some (.bool true) ∧ compared.Representable values) ∧
      ∃ text, compared.toGo .empty = .ok text ∧ compared.Keeps .empty values := by
  intro half compared values
  have hvalue : compared.value values = some (.bool true) := rfl
  have h : compared.Representable values :=
    ⟨by decide, fun _ => by simp [compared, half, parts]⟩
  obtain ⟨text, htext, -, hkeeps, -⟩ := toGo_value .empty hvalue h
  refine ⟨⟨hvalue, h⟩, text, htext, hkeeps.2 ?_ _ (mem_parts _)⟩
  have heven : half.DividesEvenly values := by
    intro left right result hleft hright _
    cases hleft
    cases hright
    exact Or.inl (by decide)
  have hcompared : compared.DividesEvenly values := fun _ _ _ _ _ _ => trivial
  intro part hpart
  simp only [compared, half, parts, List.cons_append, List.nil_append, List.mem_cons,
    List.not_mem_nil, or_false] at hpart
  rcases hpart with rfl | rfl | rfl | rfl | rfl
  · exact hcompared
  · exact heven
  · trivial
  · trivial
  · trivial

/-- TLA+ halves minus seven to minus four, Go to minus three. -/
theorem negative_half_rounded_up :
    let half := binary ⟨1⟩ .divide (number ⟨2⟩ (-7)) (number ⟨3⟩ 2)
    let values := fun _ : String => Scalar.int 0
    half.value values = some (.int (-4)) ∧ half.Representable values ∧
      half.toGo .empty = .ok "(-7 / 2)" ∧ read "(-7 / 2)" = some (half.term .empty) ∧
      half.goValue .empty values = some (.constant (-3)) ∧ ¬half.Keeps .empty values := by
  intro half values
  have hvalue : half.value values = some (.int (-4)) := rfl
  have hgo : half.goValue .empty values = some (.constant (-3)) := rfl
  refine ⟨hvalue, ⟨by decide, fun _ => by simp [half, parts]⟩, rfl, rfl, hgo, fun hkeeps => ?_⟩
  obtain ⟨go, hsame, hkept⟩ := hkeeps _ hvalue
  cases Option.some.inj (hgo.symm.trans hsame)
  have hequal : (-3 : Int) = -4 := hkept
  exact absurd hequal (by decide)

end Expression

end PlusCalGo
