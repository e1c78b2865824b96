import PlusCalGo.Algorithm.Basic

/-!
# Uids of an algorithm

The uids of all nodes in declaration order, and the identifiers inside an expression.
-/

namespace PlusCalGo

namespace Expression

mutual

/-- The uids of the expression and of all its parts, each part after the whole. -/
def uids : Expression → List Uid
  | number uid _ | bool uid _ | string uid _ | identifier uid _ => [uid]
  | index uid function params => uid :: (function.uids ++ listUids params)
  | binary uid _ lhs rhs => uid :: (lhs.uids ++ rhs.uids)
  | unary uid _ operand => uid :: operand.uids
  | tuple uid elements => uid :: listUids elements
  | ifElse uid condition yes no => uid :: (condition.uids ++ yes.uids ++ no.uids)
  | apply uid _ args => uid :: listUids args

def listUids : List Expression → List Uid
  | [] => []
  | expression :: rest => expression.uids ++ listUids rest

end

mutual

/-- The uids of the identifiers in the expression, in source order. -/
def identifiers : Expression → List Uid
  | identifier uid _ => [uid]
  | number .. | bool .. | string .. => []
  | index _ function params => function.identifiers ++ listIdentifiers params
  | binary _ _ lhs rhs => lhs.identifiers ++ rhs.identifiers
  | unary _ _ operand => operand.identifiers
  | tuple _ elements => listIdentifiers elements
  | ifElse _ condition yes no => condition.identifiers ++ yes.identifiers ++ no.identifiers
  | apply _ _ args => listIdentifiers args

def listIdentifiers : List Expression → List Uid
  | [] => []
  | expression :: rest => expression.identifiers ++ listIdentifiers rest

end

end Expression

def ConstantDecl.uids (decl : ConstantDecl) : List Uid :=
  decl.uid :: (decl.value.map Expression.uids).getD []

def VariableDecl.uids (decl : VariableDecl) : List Uid :=
  decl.uid :: (decl.value.map Expression.uids).getD []

def AssignmentPair.uids (pair : AssignmentPair) : List Uid := pair.lhs.uids ++ pair.rhs.uids

namespace Statement

mutual

def uids : Statement → List Uid
  | labeled m label body => m.uid :: label.uid :: listUids body
  | whileDo m condition body => m.uid :: (condition.uids ++ listUids body)
  | ifElse m condition yes no => m.uid :: (condition.uids ++ listUids yes ++ listUids no)
  | either m cases => m.uid :: casesUids cases
  | assign m pairs => m.uid :: pairs.flatMap AssignmentPair.uids
  | call m _ arguments | macroCall m _ arguments => m.uid :: arguments.flatMap Expression.uids
  | withDo m bindings body => m.uid :: (bindings.flatMap VariableDecl.uids ++ listUids body)
  | print m value | assert m value | await m value => m.uid :: value.uids
  | leave m | skip m | goto m _ => [m.uid]

def listUids : List Statement → List Uid
  | [] => []
  | statement :: rest => statement.uids ++ listUids rest

def casesUids : List (List Statement) → List Uid
  | [] => []
  | statements :: rest => listUids statements ++ casesUids rest

end

end Statement

def ProcessSelf.uids : ProcessSelf → List Uid
  | single value => value.uids
  | range low high => low.uids ++ high.uids

def Procedure.uids (procedure : Procedure) : List Uid :=
  procedure.uid :: (procedure.params.flatMap VariableDecl.uids ++
    procedure.locals.flatMap VariableDecl.uids ++ Statement.listUids procedure.body)

def Process.uids (process : Process) : List Uid :=
  process.uid :: process.selfDecl :: (process.selfValue.uids ++
    process.locals.flatMap VariableDecl.uids ++ Statement.listUids process.body)

/-- All uids in declaration order: constants, variables, procedures, processes. -/
def Algorithm.uids (algorithm : Algorithm) : List Uid :=
  algorithm.constants.flatMap ConstantDecl.uids ++ algorithm.globals.flatMap VariableDecl.uids ++
    algorithm.procedures.flatMap Procedure.uids ++ algorithm.processes.flatMap Process.uids

/-- The first uid of a list that an earlier element already is. -/
def Uid.firstRepeated? : List Uid → List Uid → Option Uid
  | _, [] => none
  | seen, uid :: rest => if uid ∈ seen then some uid else firstRepeated? (uid :: seen) rest

end PlusCalGo
