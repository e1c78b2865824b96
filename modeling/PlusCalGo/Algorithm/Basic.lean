/-!
# Algorithms

A macro-expanded PlusCal algorithm. Every declaration, label, statement and expression carries a
uid, and nodes are told apart by uid alone. Labels are flat: a labeled statement is one atomic step.
-/

namespace PlusCalGo

/-- The identity of a node. -/
structure Uid where
  number : UInt32
deriving DecidableEq, Inhabited

namespace Uid

instance : LT Uid := ⟨fun a b => a.number < b.number⟩

instance (a b : Uid) : Decidable (a < b) := inferInstanceAs (Decidable (a.number < b.number))

def first : Uid := ⟨0⟩

/-- The uid that is given out after this one. -/
def next (uid : Uid) : Uid := ⟨uid.number + 1⟩

/-- Uids are shown with a leading hash sign. -/
def text (uid : Uid) : String := "#" ++ Nat.repr uid.number.toNat

end Uid

/-- A place in the text of the algorithm's author, counted from zero. -/
structure CharPosition where
  line : Int32
  column : Int32
deriving DecidableEq, Inhabited

/-- The stretch of text a node was read from; all zero when nobody knows. -/
structure TextLocation where
  start : CharPosition
  stop : CharPosition
deriving DecidableEq, Inhabited

namespace TextLocation

def unknown : TextLocation := ⟨⟨0, 0⟩, ⟨0, 0⟩⟩

/-- The first 120 columns of a line, for nodes of which only the line is known. -/
def wholeLine (line : Int32) : TextLocation := ⟨⟨line, 0⟩, ⟨line, 120⟩⟩

end TextLocation

/-- How a variable is stored. Slices are addressed from one in PlusCal. -/
inductive ResourceKind where
  | plain
  | slice
  | map
deriving DecidableEq, Inhabited

inductive BinaryOperator where
  | add
  | subtract
  | multiply
  | divide
  | modulo
  | equal
  | notEqual
  | lessThan
  | lessThanOrEqual
  | greaterThan
  | greaterThanOrEqual
  | and
  | or
deriving DecidableEq, Inhabited

inductive UnaryOperator where
  | not
  | negate
deriving DecidableEq, Inhabited

/-- A TLA+ expression. `index` is `f[x]` or `f[x, y]`, `apply` an operator such as `Len(s)`. -/
inductive Expression where
  | number (uid : Uid) (value : Int64)
  | bool (uid : Uid) (value : Bool)
  | string (uid : Uid) (value : String)
  | identifier (uid : Uid) (name : String)
  | index (uid : Uid) (function : Expression) (params : List Expression)
  | binary (uid : Uid) (op : BinaryOperator) (lhs rhs : Expression)
  | unary (uid : Uid) (op : UnaryOperator) (operand : Expression)
  | tuple (uid : Uid) (elements : List Expression)
  | ifElse (uid : Uid) (condition yes no : Expression)
  | apply (uid : Uid) (name : String) (args : List Expression)
deriving Inhabited

def Expression.uid : Expression → Uid
  | number uid _ | bool uid _ | string uid _ | identifier uid _ | index uid _ _ | binary uid _ _ _
  | unary uid _ _ | tuple uid _ | ifElse uid _ _ _ | apply uid _ _ => uid

/-- The variable an assignment writes to: `x` for `x`, `x[i]` and `x[i][j]`. -/
def Expression.assignmentRoot? : Expression → Option Expression
  | identifier uid name => some (identifier uid name)
  | index _ function _ => function.assignmentRoot?
  | _ => none

structure ConstantDecl where
  uid : Uid
  name : String
  value : Option Expression
deriving Inhabited

structure VariableDecl where
  uid : Uid
  name : String
  value : Option Expression
  resource : ResourceKind
  location : TextLocation
deriving Inhabited

structure Label where
  uid : Uid
  name : String
deriving DecidableEq, Inhabited

/-- The label every process and procedure can jump to in order to finish. -/
def Label.done : String := "Done"

/-- One target and one value of a simultaneous assignment. -/
structure AssignmentPair where
  lhs : Expression
  rhs : Expression
deriving Inhabited

/-- What every statement carries: its identity and its place. -/
structure Mark where
  uid : Uid
  location : TextLocation
deriving DecidableEq, Inhabited

/-- `assign` makes all its pairs at once; a `macroCall` is one that expansion has left over. -/
inductive Statement where
  | labeled (mark : Mark) (label : Label) (body : List Statement)
  | whileDo (mark : Mark) (condition : Expression) (body : List Statement)
  | ifElse (mark : Mark) (condition : Expression) (yes no : List Statement)
  | either (mark : Mark) (cases : List (List Statement))
  | assign (mark : Mark) (pairs : List AssignmentPair)
  | leave (mark : Mark)
  | skip (mark : Mark)
  | call (mark : Mark) (target : String) (arguments : List Expression)
  | macroCall (mark : Mark) (target : String) (arguments : List Expression)
  | withDo (mark : Mark) (bindings : List VariableDecl) (body : List Statement)
  | print (mark : Mark) (value : Expression)
  | assert (mark : Mark) (value : Expression)
  | await (mark : Mark) (value : Expression)
  | goto (mark : Mark) (target : String)
deriving Inhabited

namespace Statement

def mark : Statement → Mark
  | labeled m _ _ | whileDo m _ _ | ifElse m _ _ _ | either m _ | assign m _ | leave m | skip m
  | call m _ _ | macroCall m _ _ | withDo m _ _ | print m _ | assert m _ | await m _ | goto m _ => m

def uid (statement : Statement) : Uid := statement.mark.uid

def location (statement : Statement) : TextLocation := statement.mark.location

def isLabeled : Statement → Bool
  | labeled .. => true
  | _ => false

mutual

/-- A statement transfers control if it may go on somewhere else than at the next statement, or if
a label stands in it. -/
def transfersControl : Statement → Bool
  | labeled .. | leave .. | call .. | macroCall .. | goto .. => true
  | whileDo _ _ body | withDo _ _ body => anyTransfersControl body
  | ifElse _ _ yes no => anyTransfersControl yes || anyTransfersControl no
  | either _ cases => anyCaseTransfersControl cases
  | assign .. | skip .. | print .. | assert .. | await .. => false

def anyTransfersControl : List Statement → Bool
  | [] => false
  | statement :: rest => statement.transfersControl || anyTransfersControl rest

def anyCaseTransfersControl : List (List Statement) → Bool
  | [] => false
  | statements :: rest => anyTransfersControl statements || anyCaseTransfersControl rest

end

end Statement

/-- `process (P = e)` runs once, `process (P \in low..high)` once for each number of the range. -/
inductive ProcessSelf where
  | single (value : Expression)
  | range (low high : Expression)
deriving Inhabited

structure Process where
  uid : Uid
  name : String
  /-- The declaration of the implicit `self`. -/
  selfDecl : Uid
  selfValue : ProcessSelf
  locals : List VariableDecl
  body : List Statement
deriving Inhabited

structure Procedure where
  uid : Uid
  name : String
  params : List VariableDecl
  locals : List VariableDecl
  body : List Statement
deriving Inhabited

structure Algorithm where
  name : String
  constants : List ConstantDecl
  /-- The variables that all processes share. -/
  globals : List VariableDecl
  procedures : List Procedure
  processes : List Process
deriving Inhabited

end PlusCalGo
