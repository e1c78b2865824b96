import PlusCalGo.Algorithm.Basic
import PlusCalGo.Json.Basic

/-!
# Writing algorithms

Algorithms as JSON values with all their fields, in the form the reader takes.
-/

namespace PlusCalGo

def Uid.toJson (uid : Uid) : Json := .integer uid.number.toNat

def CharPosition.toJson (position : CharPosition) : Json :=
  .object [("line_number", .integer position.line.toInt),
    ("char_column", .integer position.column.toInt)]

def TextLocation.toJson (location : TextLocation) : Json :=
  .object [("start_pos", location.start.toJson), ("end_pos", location.stop.toJson)]

def ResourceKind.toJson : ResourceKind → Json
  | plain => .string "plain"
  | slice => .string "slice"
  | map => .string "map"

def BinaryOperator.toJson : BinaryOperator → Json
  | add => .string "add"
  | subtract => .string "subtract"
  | multiply => .string "multiply"
  | divide => .string "divide"
  | modulo => .string "modulo"
  | equal => .string "equal"
  | notEqual => .string "not_equal"
  | lessThan => .string "less_than"
  | lessThanOrEqual => .string "less_than_or_equal"
  | greaterThan => .string "greater_than"
  | greaterThanOrEqual => .string "greater_than_or_equal"
  | and => .string "and"
  | or => .string "or"

def UnaryOperator.toJson : UnaryOperator → Json
  | not => .string "not"
  | negate => .string "negate"

/-- An expression under its kind. -/
def Expression.node (uid : Uid) (kind : String) (content : Json) : Json :=
  .object [("uid", uid.toJson), ("kind", .object [(kind, content)])]

namespace Expression

mutual

def toJson : Expression → Json
  | number uid value => node uid "number" (.integer value.toInt)
  | bool uid value => node uid "bool" (.bool value)
  | string uid value => node uid "string" (.string value)
  | identifier uid name => node uid "identifier" (.string name)
  | index uid function params =>
    node uid "function_call"
      (.object [("function", function.toJson), ("params", .array (listToJson params))])
  | binary uid op lhs rhs =>
    node uid "bin_op" (.object [("op", op.toJson), ("lhs", lhs.toJson), ("rhs", rhs.toJson)])
  | unary uid op operand =>
    node uid "unary" (.object [("op", op.toJson), ("operand", operand.toJson)])
  | tuple uid elements => node uid "tuple" (.array (listToJson elements))
  | ifElse uid condition yes no =>
    node uid "if" (.object [("condition", condition.toJson), ("yes", yes.toJson),
      ("no", no.toJson)])
  | apply uid name args =>
    node uid "operator_call" (.object [("name", .string name), ("args", .array (listToJson args))])

def listToJson : List Expression → List Json
  | [] => []
  | expression :: rest => expression.toJson :: listToJson rest

end

end Expression

/-- The initial value of a declaration, if it has one. -/
def Expression.optionToJson : Option Expression → Json
  | none => .null
  | some value => value.toJson

def ConstantDecl.toJson (decl : ConstantDecl) : Json :=
  .object [("uid", decl.uid.toJson), ("name", .string decl.name),
    ("value", Expression.optionToJson decl.value)]

def VariableDecl.toJson (decl : VariableDecl) : Json :=
  .object [("uid", decl.uid.toJson), ("name", .string decl.name),
    ("value", Expression.optionToJson decl.value), ("resource", decl.resource.toJson),
    ("location", decl.location.toJson)]

def Label.toJson (label : Label) : Json :=
  .object [("uid", label.uid.toJson), ("name", .string label.name)]

def AssignmentPair.toJson (pair : AssignmentPair) : Json :=
  .object [("lhs", pair.lhs.toJson), ("rhs", pair.rhs.toJson)]

/-- A statement around its kind. -/
def Mark.node (mark : Mark) (kind : Json) : Json :=
  .object [("uid", mark.uid.toJson), ("kind", kind), ("location", mark.location.toJson)]

/-- A kind of statement that has fields. -/
def Mark.fields (mark : Mark) (kind : String) (fields : List (String × Json)) : Json :=
  mark.node (.object [(kind, .object fields)])

namespace Statement

mutual

def toJson : Statement → Json
  | labeled mark label body =>
    mark.fields "labeled_statements"
      [("label", label.toJson), ("statements", .array (listToJson body))]
  | whileDo mark condition body =>
    mark.fields "while" [("condition", condition.toJson), ("body", .array (listToJson body))]
  | ifElse mark condition yes no =>
    mark.fields "if" [("condition", condition.toJson), ("yes", .array (listToJson yes)),
      ("no", .array (listToJson no))]
  | either mark cases => mark.fields "either" [("cases", .array (casesToJson cases))]
  | assign mark pairs =>
    mark.fields "assignment" [("pairs", .array (pairs.map AssignmentPair.toJson))]
  | leave mark => mark.node (.string "return")
  | skip mark => mark.node (.string "skip")
  | call mark target arguments =>
    mark.fields "call" [("target", .string target),
      ("arguments", .array (Expression.listToJson arguments))]
  | macroCall mark target arguments =>
    mark.fields "macro_call" [("target", .string target),
      ("arguments", .array (Expression.listToJson arguments))]
  | withDo mark bindings body =>
    mark.fields "with" [("variables", .array (bindings.map VariableDecl.toJson)),
      ("body", .array (listToJson body))]
  | print mark value => mark.node (.object [("print", value.toJson)])
  | assert mark value => mark.node (.object [("assert", value.toJson)])
  | await mark value => mark.node (.object [("await", value.toJson)])
  | goto mark target => mark.node (.object [("goto", .string target)])

def listToJson : List Statement → List Json
  | [] => []
  | statement :: rest => statement.toJson :: listToJson rest

def casesToJson : List (List Statement) → List Json
  | [] => []
  | statements :: rest => .array (listToJson statements) :: casesToJson rest

end

end Statement

def ProcessSelf.toJson : ProcessSelf → Json
  | single value => .object [("single", value.toJson)]
  | range low high => .object [("range", .object [("low", low.toJson), ("high", high.toJson)])]

def Process.toJson (process : Process) : Json :=
  .object [("uid", process.uid.toJson), ("name", .string process.name),
    ("self_decl", process.selfDecl.toJson), ("self_value", process.selfValue.toJson),
    ("variables", .array (process.locals.map VariableDecl.toJson)),
    ("body", .array (Statement.listToJson process.body))]

def Procedure.toJson (procedure : Procedure) : Json :=
  .object [("uid", procedure.uid.toJson), ("name", .string procedure.name),
    ("params", .array (procedure.params.map VariableDecl.toJson)),
    ("variables", .array (procedure.locals.map VariableDecl.toJson)),
    ("body", .array (Statement.listToJson procedure.body))]

def Algorithm.toJson (algorithm : Algorithm) : Json :=
  .object [("name", .string algorithm.name),
    ("constants", .array (algorithm.constants.map ConstantDecl.toJson)),
    ("variables", .array (algorithm.globals.map VariableDecl.toJson)),
    ("procedures", .array (algorithm.procedures.map Procedure.toJson)),
    ("processes", .array (algorithm.processes.map Process.toJson))]

end PlusCalGo
