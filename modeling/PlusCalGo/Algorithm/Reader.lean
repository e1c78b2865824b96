import PlusCalGo.Algorithm.Basic
import PlusCalGo.Json.Reader

/-!
# Reading algorithms

Algorithms from JSON text. Each record says which fields it has and which of them may be left off;
each reader of nested nodes takes how many brackets may still be opened, and its parts take less.
-/

namespace PlusCalGo

open Json Json.Reader

/-! ## Fields -/

namespace Json.Reader

/-- A field that every record of its kind has. -/
def Field.required {σ α : Type} (name : String) (get : σ → Option α) (set : α → σ → σ)
    (reader : Reader α) : Field σ where
  name := name
  isRequired := true
  isRead := fun state => (get state).isSome
  read := fun state => do pure (set (← reader) state)

/-- A field that may be left off. -/
def Field.defaulted {σ α : Type} (name : String) (get : σ → Option α) (set : α → σ → σ)
    (reader : Reader α) : Field σ :=
  { Field.required name get set reader with isRequired := false }

end Json.Reader

namespace Algorithm.Reader

def uid : Reader Uid := do
  pure ⟨UInt32.ofNat (← integer 0 4294967295 "u32").toNat⟩

def int32 : Reader Int32 := do
  pure (Int32.ofInt (← integer Int32.minValue.toInt Int32.maxValue.toInt "i32"))

def int64 : Reader Int64 := do
  pure (Int64.ofInt (← integer Int64.minValue.toInt Int64.maxValue.toInt "i64"))

/-! ## Places -/

structure PositionFields where
  line : Option Int32 := none
  column : Option Int32 := none

def position (depth : Nat) : Reader CharPosition :=
  record (σ := PositionFields) depth {
    wanted := "struct CharPosition"
    fields := [
      .required "line_number" (·.line) (fun v s => { s with line := some v }) int32,
      .required "char_column" (·.column) (fun v s => { s with column := some v }) int32]
    start := {}
    finish := fun s => do
      pure ⟨← require "line_number" s.line, ← require "char_column" s.column⟩ }

structure LocationFields where
  start : Option CharPosition := none
  stop : Option CharPosition := none

def location (depth : Nat) : Reader TextLocation :=
  record (σ := LocationFields) depth {
    wanted := "struct TextLocation"
    fields := [
      .required "start_pos" (·.start) (fun v s => { s with start := some v })
        (position (depth - 1)),
      .required "end_pos" (·.stop) (fun v s => { s with stop := some v }) (position (depth - 1))]
    start := {}
    finish := fun s => do
      pure ⟨← require "start_pos" s.start, ← require "end_pos" s.stop⟩ }

/-! ## Names of a fixed set -/

def binaryOperator (depth : Nat) : Reader BinaryOperator :=
  choice depth [
    ("add", .unit .add), ("subtract", .unit .subtract), ("multiply", .unit .multiply),
    ("divide", .unit .divide), ("modulo", .unit .modulo), ("equal", .unit .equal),
    ("not_equal", .unit .notEqual), ("less_than", .unit .lessThan),
    ("less_than_or_equal", .unit .lessThanOrEqual), ("greater_than", .unit .greaterThan),
    ("greater_than_or_equal", .unit .greaterThanOrEqual), ("and", .unit .and), ("or", .unit .or)]

def unaryOperator (depth : Nat) : Reader UnaryOperator :=
  choice depth [("not", .unit .not), ("negate", .unit .negate)]

def resourceKind (depth : Nat) : Reader ResourceKind :=
  choice depth [("plain", .unit .plain), ("slice", .unit .slice), ("map", .unit .map)]

/-! ## Expressions -/

/-- The fields of an expression. Its kind is read before or after its uid. -/
structure ExpressionFields where
  uid : Option Uid := none
  kind : Option (Uid → Expression) := none

structure IndexFields where
  function : Option Expression := none
  params : Option (List Expression) := none

structure BinaryFields where
  op : Option BinaryOperator := none
  lhs : Option Expression := none
  rhs : Option Expression := none

structure UnaryFields where
  op : Option UnaryOperator := none
  operand : Option Expression := none

structure IfElseFields where
  condition : Option Expression := none
  yes : Option Expression := none
  no : Option Expression := none

structure ApplyFields where
  name : Option String := none
  args : Option (List Expression) := none

abbrev ExpressionKind := Uid → Expression

def expressionShape (kind : Reader ExpressionKind) : Record ExpressionFields Expression where
  wanted := "struct Expression"
  fields := [
    .required "uid" (·.uid) (fun v s => { s with uid := some v }) uid,
    .required "kind" (·.kind) (fun v s => { s with kind := some v }) kind]
  start := {}
  finish := fun s => do
    let uid ← require "uid" s.uid
    let kind ← require "kind" s.kind
    pure (kind uid)

def indexShape (expression : Reader Expression) (expressions : Reader (List Expression)) :
    Record IndexFields ExpressionKind where
  wanted := "struct variant ExpressionKind::FunctionCall"
  fields := [
    .required "function" (·.function) (fun v s => { s with function := some v }) expression,
    .required "params" (·.params) (fun v s => { s with params := some v }) expressions]
  start := {}
  finish := fun s => do
    let function ← require "function" s.function
    let params ← require "params" s.params
    pure fun uid => .index uid function params

def binaryShape (op : Reader BinaryOperator) (expression : Reader Expression) :
    Record BinaryFields ExpressionKind where
  wanted := "struct variant ExpressionKind::BinOp"
  fields := [
    .required "op" (·.op) (fun v s => { s with op := some v }) op,
    .required "lhs" (·.lhs) (fun v s => { s with lhs := some v }) expression,
    .required "rhs" (·.rhs) (fun v s => { s with rhs := some v }) expression]
  start := {}
  finish := fun s => do
    let op ← require "op" s.op
    let lhs ← require "lhs" s.lhs
    let rhs ← require "rhs" s.rhs
    pure fun uid => .binary uid op lhs rhs

def unaryShape (op : Reader UnaryOperator) (expression : Reader Expression) :
    Record UnaryFields ExpressionKind where
  wanted := "struct variant ExpressionKind::Unary"
  fields := [
    .required "op" (·.op) (fun v s => { s with op := some v }) op,
    .required "operand" (·.operand) (fun v s => { s with operand := some v }) expression]
  start := {}
  finish := fun s => do
    let op ← require "op" s.op
    let operand ← require "operand" s.operand
    pure fun uid => .unary uid op operand

def ifElseShape (expression : Reader Expression) : Record IfElseFields ExpressionKind where
  wanted := "struct variant ExpressionKind::If"
  fields := [
    .required "condition" (·.condition) (fun v s => { s with condition := some v }) expression,
    .required "yes" (·.yes) (fun v s => { s with yes := some v }) expression,
    .required "no" (·.no) (fun v s => { s with no := some v }) expression]
  start := {}
  finish := fun s => do
    let condition ← require "condition" s.condition
    let yes ← require "yes" s.yes
    let no ← require "no" s.no
    pure fun uid => .ifElse uid condition yes no

def applyShape (expressions : Reader (List Expression)) : Record ApplyFields ExpressionKind where
  wanted := "struct variant ExpressionKind::OperatorCall"
  fields := [
    .required "name" (·.name) (fun v s => { s with name := some v }) string,
    .required "args" (·.args) (fun v s => { s with args := some v }) expressions]
  start := {}
  finish := fun s => do
    let name ← require "name" s.name
    let args ← require "args" s.args
    pure fun uid => .apply uid name args

/-- The kinds of expressions, over readers for the parts that are read with one bracket less. -/
def expressionKinds (index binary unary ifElse apply : Reader ExpressionKind)
    (expressions : Reader (List Expression)) : List (String × Payload ExpressionKind) := [
  ("number", .value do let value ← int64; pure fun uid => .number uid value),
  ("bool", .value do let value ← bool; pure fun uid => .bool uid value),
  ("string", .value do let value ← string; pure fun uid => .string uid value),
  ("identifier", .value do let name ← string; pure fun uid => .identifier uid name),
  ("function_call", .fields index),
  ("bin_op", .fields binary),
  ("unary", .fields unary),
  ("tuple", .value do let elements ← expressions; pure fun uid => .tuple uid elements),
  ("if", .fields ifElse),
  ("operator_call", .fields apply)]

mutual

def expression (depth : Nat) (rest : List Char) : Except Failure (Expression × List Char) :=
  record depth (expressionShape (match depth with
    | 0 => failNext .nestedTooDeep
    | depth + 1 => expressionKind depth)) rest

def expressionKind (depth : Nat) (rest : List Char) :
    Except Failure (ExpressionKind × List Char) :=
  choice depth (match depth with
    | 0 =>
      let stop := failNext .nestedTooDeep
      expressionKinds stop stop stop stop stop (failNext .nestedTooDeep)
    | depth + 1 =>
      expressionKinds (indexFields depth) (binaryFields depth) (unaryFields depth)
        (ifElseFields depth) (applyFields depth) (expressions depth)) rest

def expressions (depth : Nat) (rest : List Char) :
    Except Failure (List Expression × List Char) :=
  list depth (match depth with
    | 0 => failNext .nestedTooDeep
    | depth + 1 => expression depth) rest

def indexFields (depth : Nat) (rest : List Char) : Except Failure (ExpressionKind × List Char) :=
  record depth (match depth with
    | 0 => indexShape (failNext .nestedTooDeep) (failNext .nestedTooDeep)
    | depth + 1 => indexShape (expression depth) (expressions depth)) rest

def binaryFields (depth : Nat) (rest : List Char) : Except Failure (ExpressionKind × List Char) :=
  record depth (binaryShape (binaryOperator (depth - 1)) (match depth with
    | 0 => failNext .nestedTooDeep
    | depth + 1 => expression depth)) rest

def unaryFields (depth : Nat) (rest : List Char) : Except Failure (ExpressionKind × List Char) :=
  record depth (unaryShape (unaryOperator (depth - 1)) (match depth with
    | 0 => failNext .nestedTooDeep
    | depth + 1 => expression depth)) rest

def ifElseFields (depth : Nat) (rest : List Char) : Except Failure (ExpressionKind × List Char) :=
  record depth (ifElseShape (match depth with
    | 0 => failNext .nestedTooDeep
    | depth + 1 => expression depth)) rest

def applyFields (depth : Nat) (rest : List Char) : Except Failure (ExpressionKind × List Char) :=
  record depth (applyShape (match depth with
    | 0 => failNext .nestedTooDeep
    | depth + 1 => expressions depth)) rest

end

/-! ## Declarations -/

structure ConstantFields where
  uid : Option Uid := none
  name : Option String := none
  value : Option (Option Expression) := none

def constantDecl (depth : Nat) : Reader ConstantDecl :=
  record (σ := ConstantFields) depth {
    wanted := "struct ConstantDecl"
    fields := [
      .required "uid" (·.uid) (fun v s => { s with uid := some v }) uid,
      .required "name" (·.name) (fun v s => { s with name := some v }) string,
      .defaulted "value" (·.value) (fun v s => { s with value := some v })
        (optional (expression (depth - 1)))]
    start := {}
    finish := fun s => do
      pure ⟨← require "uid" s.uid, ← require "name" s.name, s.value.getD none⟩ }

structure VariableFields where
  uid : Option Uid := none
  name : Option String := none
  value : Option (Option Expression) := none
  resource : Option ResourceKind := none
  location : Option TextLocation := none

def variableDecl (depth : Nat) : Reader VariableDecl :=
  record (σ := VariableFields) depth {
    wanted := "struct VariableDecl"
    fields := [
      .required "uid" (·.uid) (fun v s => { s with uid := some v }) uid,
      .required "name" (·.name) (fun v s => { s with name := some v }) string,
      .defaulted "value" (·.value) (fun v s => { s with value := some v })
        (optional (expression (depth - 1))),
      .defaulted "resource" (·.resource) (fun v s => { s with resource := some v })
        (resourceKind (depth - 1)),
      .defaulted "location" (·.location) (fun v s => { s with location := some v })
        (location (depth - 1))]
    start := {}
    finish := fun s => do
      let uid ← require "uid" s.uid
      let name ← require "name" s.name
      pure ⟨uid, name, s.value.getD none, s.resource.getD .plain,
        s.location.getD TextLocation.unknown⟩ }

def variableDecls (depth : Nat) : Reader (List VariableDecl) :=
  list depth (variableDecl (depth - 1))

structure LabelFields where
  uid : Option Uid := none
  name : Option String := none

def label (depth : Nat) : Reader Label :=
  record (σ := LabelFields) depth {
    wanted := "struct Label"
    fields := [
      .required "uid" (·.uid) (fun v s => { s with uid := some v }) uid,
      .required "name" (·.name) (fun v s => { s with name := some v }) string]
    start := {}
    finish := fun s => do
      pure ⟨← require "uid" s.uid, ← require "name" s.name⟩ }

/-! ## Statements -/

structure PairFields where
  lhs : Option Expression := none
  rhs : Option Expression := none

def assignmentPair (depth : Nat) : Reader AssignmentPair :=
  record (σ := PairFields) depth {
    wanted := "struct AssignmentPair"
    fields := [
      .required "lhs" (·.lhs) (fun v s => { s with lhs := some v }) (expression (depth - 1)),
      .required "rhs" (·.rhs) (fun v s => { s with rhs := some v }) (expression (depth - 1))]
    start := {}
    finish := fun s => do
      pure ⟨← require "lhs" s.lhs, ← require "rhs" s.rhs⟩ }

abbrev StatementKind := Mark → Statement

/-- The fields of a statement. Its kind is read before or after its uid and location. -/
structure StatementFields where
  uid : Option Uid := none
  kind : Option StatementKind := none
  location : Option TextLocation := none

structure LabeledFields where
  label : Option Label := none
  statements : Option (List Statement) := none

structure WhileFields where
  condition : Option Expression := none
  body : Option (List Statement) := none

structure BranchFields where
  condition : Option Expression := none
  yes : Option (List Statement) := none
  no : Option (List Statement) := none

structure EitherFields where
  cases : Option (List (List Statement)) := none

structure AssignFields where
  pairs : Option (List AssignmentPair) := none

structure CallFields where
  target : Option String := none
  arguments : Option (List Expression) := none

structure WithFields where
  bindings : Option (List VariableDecl) := none
  body : Option (List Statement) := none

def statementShape (kind : Reader StatementKind) (location : Reader TextLocation) :
    Record StatementFields Statement where
  wanted := "struct Statement"
  fields := [
    .required "uid" (·.uid) (fun v s => { s with uid := some v }) uid,
    .required "kind" (·.kind) (fun v s => { s with kind := some v }) kind,
    .defaulted "location" (·.location) (fun v s => { s with location := some v }) location]
  start := {}
  finish := fun s => do
    let uid ← require "uid" s.uid
    let kind ← require "kind" s.kind
    pure (kind ⟨uid, s.location.getD TextLocation.unknown⟩)

def labeledShape (label : Reader Label) (statements : Reader (List Statement)) :
    Record LabeledFields StatementKind where
  wanted := "struct variant StatementKind::LabeledStatements"
  fields := [
    .required "label" (·.label) (fun v s => { s with label := some v }) label,
    .required "statements" (·.statements) (fun v s => { s with statements := some v }) statements]
  start := {}
  finish := fun s => do
    let label ← require "label" s.label
    let statements ← require "statements" s.statements
    pure fun mark => .labeled mark label statements

def whileShape (condition : Reader Expression) (statements : Reader (List Statement)) :
    Record WhileFields StatementKind where
  wanted := "struct variant StatementKind::While"
  fields := [
    .required "condition" (·.condition) (fun v s => { s with condition := some v }) condition,
    .required "body" (·.body) (fun v s => { s with body := some v }) statements]
  start := {}
  finish := fun s => do
    let condition ← require "condition" s.condition
    let body ← require "body" s.body
    pure fun mark => .whileDo mark condition body

def branchShape (condition : Reader Expression) (statements : Reader (List Statement)) :
    Record BranchFields StatementKind where
  wanted := "struct variant StatementKind::If"
  fields := [
    .required "condition" (·.condition) (fun v s => { s with condition := some v }) condition,
    .required "yes" (·.yes) (fun v s => { s with yes := some v }) statements,
    .defaulted "no" (·.no) (fun v s => { s with no := some v }) statements]
  start := {}
  finish := fun s => do
    let condition ← require "condition" s.condition
    let yes ← require "yes" s.yes
    pure fun mark => .ifElse mark condition yes (s.no.getD [])

def eitherShape (cases : Reader (List (List Statement))) : Record EitherFields StatementKind where
  wanted := "struct variant StatementKind::Either"
  fields := [.required "cases" (·.cases) (fun v s => { s with cases := some v }) cases]
  start := {}
  finish := fun s => do
    let cases ← require "cases" s.cases
    pure fun mark => .either mark cases

def assignFields (depth : Nat) : Reader StatementKind :=
  record (σ := AssignFields) depth {
    wanted := "struct variant StatementKind::Assignment"
    fields := [.required "pairs" (·.pairs) (fun v s => { s with pairs := some v })
      (list (depth - 1) (assignmentPair (depth - 2)))]
    start := {}
    finish := fun s => do
      let pairs ← require "pairs" s.pairs
      pure fun mark => .assign mark pairs }

/-- A call of a procedure or macro, by the kind of statement it makes. -/
def callFields (depth : Nat) (wanted : String)
    (make : Mark → String → List Expression → Statement) : Reader StatementKind :=
  record (σ := CallFields) depth {
    wanted := wanted
    fields := [
      .required "target" (·.target) (fun v s => { s with target := some v }) string,
      .required "arguments" (·.arguments) (fun v s => { s with arguments := some v })
        (expressions (depth - 1))]
    start := {}
    finish := fun s => do
      let target ← require "target" s.target
      let arguments ← require "arguments" s.arguments
      pure fun mark => make mark target arguments }

def withShape (bindings : Reader (List VariableDecl)) (statements : Reader (List Statement)) :
    Record WithFields StatementKind where
  wanted := "struct variant StatementKind::With"
  fields := [
    .required "variables" (·.bindings) (fun v s => { s with bindings := some v }) bindings,
    .required "body" (·.body) (fun v s => { s with body := some v }) statements]
  start := {}
  finish := fun s => do
    let bindings ← require "variables" s.bindings
    let body ← require "body" s.body
    pure fun mark => .withDo mark bindings body

/-- The kinds of statements. Kinds with statements inside are given by readers, the others are read
with `depth` brackets left. -/
def statementKinds (depth : Nat) (labeled whileDo ifElse either withDo : Reader StatementKind) :
    List (String × Payload StatementKind) := [
  ("labeled_statements", .fields labeled),
  ("while", .fields whileDo),
  ("if", .fields ifElse),
  ("either", .fields either),
  ("assignment", .fields (assignFields depth)),
  ("return", .unit .leave),
  ("skip", .unit .skip),
  ("call", .fields (callFields depth "struct variant StatementKind::Call" .call)),
  ("macro_call", .fields (callFields depth "struct variant StatementKind::MacroCall" .macroCall)),
  ("with", .fields withDo),
  ("print", .value do let value ← expression depth; pure fun mark => .print mark value),
  ("assert", .value do let value ← expression depth; pure fun mark => .assert mark value),
  ("await", .value do let value ← expression depth; pure fun mark => .await mark value),
  ("goto", .value do let target ← string; pure fun mark => .goto mark target)]

mutual

def statement (depth : Nat) (rest : List Char) : Except Failure (Statement × List Char) :=
  record depth (statementShape (match depth with
    | 0 => failNext .nestedTooDeep
    | depth + 1 => statementKind depth) (location (depth - 1))) rest

def statementKind (depth : Nat) (rest : List Char) : Except Failure (StatementKind × List Char) :=
  choice depth (match depth with
    | 0 =>
      let stop := failNext .nestedTooDeep
      statementKinds 0 stop stop stop stop stop
    | depth + 1 =>
      statementKinds depth (labeledFields depth) (whileFields depth) (branchFields depth)
        (eitherFields depth) (withFields depth)) rest

def statements (depth : Nat) (rest : List Char) : Except Failure (List Statement × List Char) :=
  list depth (match depth with
    | 0 => failNext .nestedTooDeep
    | depth + 1 => statement depth) rest

def cases (depth : Nat) (rest : List Char) : Except Failure (List (List Statement) × List Char) :=
  list depth (match depth with
    | 0 => failNext .nestedTooDeep
    | depth + 1 => statements depth) rest

def labeledFields (depth : Nat) (rest : List Char) : Except Failure (StatementKind × List Char) :=
  record depth (labeledShape (label (depth - 1)) (match depth with
    | 0 => failNext .nestedTooDeep
    | depth + 1 => statements depth)) rest

def whileFields (depth : Nat) (rest : List Char) : Except Failure (StatementKind × List Char) :=
  record depth (whileShape (expression (depth - 1)) (match depth with
    | 0 => failNext .nestedTooDeep
    | depth + 1 => statements depth)) rest

def branchFields (depth : Nat) (rest : List Char) : Except Failure (StatementKind × List Char) :=
  record depth (branchShape (expression (depth - 1)) (match depth with
    | 0 => failNext .nestedTooDeep
    | depth + 1 => statements depth)) rest

def eitherFields (depth : Nat) (rest : List Char) : Except Failure (StatementKind × List Char) :=
  record depth (eitherShape (match depth with
    | 0 => failNext .nestedTooDeep
    | depth + 1 => cases depth)) rest

def withFields (depth : Nat) (rest : List Char) : Except Failure (StatementKind × List Char) :=
  record depth (withShape (variableDecls (depth - 1)) (match depth with
    | 0 => failNext .nestedTooDeep
    | depth + 1 => statements depth)) rest

end

/-! ## Processes, procedures and the algorithm -/

structure RangeFields where
  low : Option Expression := none
  high : Option Expression := none

def selfRange (depth : Nat) : Reader ProcessSelf :=
  record (σ := RangeFields) depth {
    wanted := "struct variant ProcessSelf::Range"
    fields := [
      .required "low" (·.low) (fun v s => { s with low := some v }) (expression (depth - 1)),
      .required "high" (·.high) (fun v s => { s with high := some v }) (expression (depth - 1))]
    start := {}
    finish := fun s => do
      pure (.range (← require "low" s.low) (← require "high" s.high)) }

def processSelf (depth : Nat) : Reader ProcessSelf :=
  choice depth [
    ("single", .value (.single <$> expression (depth - 1))),
    ("range", .fields (selfRange (depth - 1)))]

structure ProcessFields where
  uid : Option Uid := none
  name : Option String := none
  selfDecl : Option Uid := none
  selfValue : Option ProcessSelf := none
  locals : Option (List VariableDecl) := none
  body : Option (List Statement) := none

def process (depth : Nat) : Reader Process :=
  record (σ := ProcessFields) depth {
    wanted := "struct Process"
    fields := [
      .required "uid" (·.uid) (fun v s => { s with uid := some v }) uid,
      .required "name" (·.name) (fun v s => { s with name := some v }) string,
      .required "self_decl" (·.selfDecl) (fun v s => { s with selfDecl := some v }) uid,
      .required "self_value" (·.selfValue) (fun v s => { s with selfValue := some v })
        (processSelf (depth - 1)),
      .defaulted "variables" (·.locals) (fun v s => { s with locals := some v })
        (variableDecls (depth - 1)),
      .required "body" (·.body) (fun v s => { s with body := some v }) (statements (depth - 1))]
    start := {}
    finish := fun s => do
      let uid ← require "uid" s.uid
      let name ← require "name" s.name
      let selfDecl ← require "self_decl" s.selfDecl
      let selfValue ← require "self_value" s.selfValue
      let body ← require "body" s.body
      pure ⟨uid, name, selfDecl, selfValue, s.locals.getD [], body⟩ }

structure ProcedureFields where
  uid : Option Uid := none
  name : Option String := none
  params : Option (List VariableDecl) := none
  locals : Option (List VariableDecl) := none
  body : Option (List Statement) := none

def procedure (depth : Nat) : Reader Procedure :=
  record (σ := ProcedureFields) depth {
    wanted := "struct Procedure"
    fields := [
      .required "uid" (·.uid) (fun v s => { s with uid := some v }) uid,
      .required "name" (·.name) (fun v s => { s with name := some v }) string,
      .defaulted "params" (·.params) (fun v s => { s with params := some v })
        (variableDecls (depth - 1)),
      .defaulted "variables" (·.locals) (fun v s => { s with locals := some v })
        (variableDecls (depth - 1)),
      .required "body" (·.body) (fun v s => { s with body := some v }) (statements (depth - 1))]
    start := {}
    finish := fun s => do
      let uid ← require "uid" s.uid
      let name ← require "name" s.name
      let body ← require "body" s.body
      pure ⟨uid, name, s.params.getD [], s.locals.getD [], body⟩ }

structure AlgorithmFields where
  name : Option String := none
  constants : Option (List ConstantDecl) := none
  globals : Option (List VariableDecl) := none
  procedures : Option (List Procedure) := none
  processes : Option (List Process) := none

def algorithm (depth : Nat) : Reader Algorithm :=
  record (σ := AlgorithmFields) depth {
    wanted := "struct Algorithm"
    fields := [
      .required "name" (·.name) (fun v s => { s with name := some v }) string,
      .defaulted "constants" (·.constants) (fun v s => { s with constants := some v })
        (list (depth - 1) (constantDecl (depth - 2))),
      .defaulted "variables" (·.globals) (fun v s => { s with globals := some v })
        (variableDecls (depth - 1)),
      .defaulted "procedures" (·.procedures) (fun v s => { s with procedures := some v })
        (list (depth - 1) (procedure (depth - 2))),
      .required "processes" (·.processes) (fun v s => { s with processes := some v })
        (list (depth - 1) (process (depth - 2)))]
    start := {}
    finish := fun s => do
      let name ← require "name" s.name
      let processes ← require "processes" s.processes
      pure ⟨name, s.constants.getD [], s.globals.getD [], s.procedures.getD [], processes⟩ }

end Algorithm.Reader

/-- The algorithm a text holds. -/
def Algorithm.parse (text : String) : Except Json.Fault Algorithm :=
  Json.parse (Algorithm.Reader.algorithm depthLimit) text

/-- A list of statements on its own, nested as deep as the text is long. -/
def Statement.parseList (text : String) : Except Json.Fault (List Statement) :=
  Json.parse (Algorithm.Reader.statements text.length) text

/-- A list of expressions on its own, nested as deep as the text is long. -/
def Expression.parseList (text : String) : Except Json.Fault (List Expression) :=
  Json.parse (Algorithm.Reader.expressions text.length) text

end PlusCalGo
