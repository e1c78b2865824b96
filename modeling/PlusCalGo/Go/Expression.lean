import PlusCalGo.Definition

/-!
# Go expressions

TLA+ expressions in Go. Binary operations always stand in parentheses.
-/

namespace PlusCalGo

/-- The Go type of what a resource holds. -/
def ResourceKind.goType : ResourceKind → String
  | plain => "int"
  | slice => "[]int"
  | map => "map[int]int"

def BinaryOperator.goText : BinaryOperator → String
  | add => "+"
  | subtract => "-"
  | multiply => "*"
  | divide => "/"
  | modulo => "%"
  | equal => "=="
  | notEqual => "!="
  | lessThan => "<"
  | lessThanOrEqual => "<="
  | greaterThan => ">"
  | greaterThanOrEqual => ">="
  | and => "&&"
  | or => "||"

def UnaryOperator.goText : UnaryOperator → String
  | not => "!"
  | negate => "-"

namespace Expression

/-- The resource of the variable that a chain of subscripts starts from. -/
def rootResource (definitions : Definitions) : Expression → Except Diagnostic ResourceKind
  | identifier uid _ => do pure (← definitions.resolve uid).resource
  | index _ function _ => function.rootResource definitions
  | _ => .ok .plain

/-- A subscript. Slices are counted from one in TLA+ and from zero in Go. -/
def goSubscript (oneBased : Bool) (index : String) : String :=
  if oneBased then "[" ++ index ++ "-1]" else "[" ++ index ++ "]"

/-- An operator with its arguments. The operators on sequences have Go forms of their own. -/
def goApply (name : String) (args : List String) : String :=
  let rendered := ", ".intercalate args
  if name = "Len" ∧ args.length = 1 then "len(" ++ rendered ++ ")"
  else if name = "Append" ∧ args.length = 2 then "append(" ++ rendered ++ ")"
  else if name = "Head" ∧ args.length = 1 then rendered ++ "[0]"
  else if name = "Tail" ∧ args.length = 1 then rendered ++ "[1:]"
  else name ++ "(" ++ rendered ++ ")"

mutual

def toGo (definitions : Definitions) : Expression → Except Diagnostic String
  | number _ value => .ok (toString value.toInt)
  | bool _ value => .ok (if value then "true" else "false")
  | string _ value => .ok (Text.quoted value)
  | identifier _ name => .ok name
  | index _ function params => do
    let oneBased := (← function.rootResource definitions) = .slice
    let function ← function.toGo definitions
    let params ← listToGo definitions params
    pure (params.foldl (fun go param => go ++ goSubscript oneBased param) function)
  | binary _ op lhs rhs => do
    let lhs ← lhs.toGo definitions
    let rhs ← rhs.toGo definitions
    pure ("(" ++ lhs ++ " " ++ op.goText ++ " " ++ rhs ++ ")")
  | unary _ op operand => do
    let operand ← operand.toGo definitions
    pure (op.goText ++ operand)
  | tuple _ elements => do
    let elements ← listToGo definitions elements
    pure ("[]int\x7b" ++ ", ".intercalate elements ++ "\x7d")
  | ifElse _ condition yes no => do
    let condition ← condition.toGo definitions
    let yes ← yes.toGo definitions
    let no ← no.toGo definitions
    pure ("func() int \x7b if " ++ condition ++ " \x7b return " ++ yes ++ " \x7d; return " ++ no ++
      " \x7d()")
  | apply _ name args => do
    let args ← listToGo definitions args
    pure (goApply name args)

def listToGo (definitions : Definitions) : List Expression → Except Diagnostic (List String)
  | [] => .ok []
  | expression :: rest => do
    let first ← expression.toGo definitions
    pure (first :: (← listToGo definitions rest))

end

end Expression

end PlusCalGo
