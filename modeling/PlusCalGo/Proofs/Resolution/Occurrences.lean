import PlusCalGo.Algorithm.Uids

/-!
# Occurrences of identifiers

All identifiers in the statements of an algorithm, each under the label of its step and with what
names mean where it stands. A label touches the global variables that identifiers under it stand
for.
-/

namespace PlusCalGo

/-! ## Names -/

/-- What names mean, inner declarations first: a global variable, by its declaration, or something
that hides the global variables of that name. -/
abbrev Naming := List (String × Option Uid)

namespace Naming

/-- The global variable that a name stands for. -/
def global? (naming : Naming) (name : String) : Option Uid :=
  (naming.find? (·.1 = name)).bind (·.2)

/-- A name stands for something else than a global variable from here on. -/
def hide (naming : Naming) (name : String) : Naming := (name, none) :: naming

def hideAll (naming : Naming) (decls : List VariableDecl) : Naming :=
  decls.foldl (fun naming decl => naming.hide decl.name) naming

end Naming

/-- The names that all processes and procedures share. -/
def Algorithm.naming (algorithm : Algorithm) : Naming :=
  algorithm.globals.foldl (fun naming decl => (decl.name, some decl.uid) :: naming)
    (algorithm.constants.foldl (fun naming decl => naming.hide decl.name) [])

def Procedure.naming (shared : Naming) (procedure : Procedure) : Naming :=
  (shared.hideAll procedure.params).hideAll procedure.locals

def Process.naming (shared : Naming) (process : Process) : Naming :=
  (shared.hide "self").hideAll process.locals

/-! ## Occurrences -/

structure Occurrence where
  /-- The innermost label around the statement. -/
  label? : Option Uid
  naming : Naming
  /-- It is the root of an assignment target. -/
  isTarget : Bool
  uid : Uid
  name : String

/-- The global variable that is read or written. -/
def Occurrence.global? (occurrence : Occurrence) : Option Uid :=
  occurrence.naming.global? occurrence.name

namespace Expression

mutual

/-- The identifiers in the expression and their names, in source order. -/
def named : Expression → List (Uid × String)
  | identifier uid name => [(uid, name)]
  | number .. | bool .. | string .. => []
  | index _ function params => function.named ++ listNamed params
  | binary _ _ lhs rhs => lhs.named ++ rhs.named
  | unary _ _ operand => operand.named
  | tuple _ elements => listNamed elements
  | ifElse _ condition yes no => condition.named ++ yes.named ++ no.named
  | apply _ _ args => listNamed args

def listNamed : List Expression → List (Uid × String)
  | [] => []
  | expression :: rest => expression.named ++ listNamed rest

end

mutual

theorem identifiers_eq (expression : Expression) :
    expression.identifiers = expression.named.map (·.1) := by
  cases expression with
  | number uid value => rfl
  | bool uid value => rfl
  | string uid value => rfl
  | identifier uid name => rfl
  | index uid function params =>
    rw [identifiers, named, List.map_append, identifiers_eq function, listIdentifiers_eq params]
  | binary uid op lhs rhs =>
    rw [identifiers, named, List.map_append, identifiers_eq lhs, identifiers_eq rhs]
  | unary uid op operand => exact identifiers_eq operand
  | tuple uid elements => exact listIdentifiers_eq elements
  | ifElse uid condition yes no =>
    rw [identifiers, named, List.map_append, List.map_append, identifiers_eq condition,
      identifiers_eq yes, identifiers_eq no]
  | apply uid name args => exact listIdentifiers_eq args

theorem listIdentifiers_eq (expressions : List Expression) :
    listIdentifiers expressions = (listNamed expressions).map (·.1) := by
  cases expressions with
  | nil => rfl
  | cons expression rest =>
    rw [listIdentifiers, listNamed, List.map_append, identifiers_eq expression,
      listIdentifiers_eq rest]

end

def reads (label? : Option Uid) (naming : Naming) (expression : Expression) : List Occurrence :=
  expression.named.map fun (uid, name) => ⟨label?, naming, false, uid, name⟩

/-- The subscripts of a target are read, and its root is written. -/
def targets (label? : Option Uid) (naming : Naming) : Expression → List Occurrence
  | identifier uid name => [⟨label?, naming, true, uid, name⟩]
  | index _ function params =>
    params.flatMap (reads label? naming) ++ function.targets label? naming
  | expression => expression.reads label? naming

end Expression

/-- The initial values of bindings, each of which may use those before it. -/
def VariableDecl.listReads (label? : Option Uid) (naming : Naming) :
    List VariableDecl → List Occurrence
  | [] => []
  | decl :: rest =>
    (decl.value.map (Expression.reads label? naming)).getD [] ++
      listReads label? (naming.hide decl.name) rest

namespace Statement

mutual

/-- The identifiers in a statement under a label. -/
def occurrences (label? : Option Uid) (naming : Naming) : Statement → List Occurrence
  | labeled _ label body => listOccurrences (some label.uid) naming body
  | whileDo _ condition body =>
    condition.reads label? naming ++ listOccurrences label? naming body
  | ifElse _ condition yes no =>
    condition.reads label? naming ++
      (listOccurrences label? naming yes ++ listOccurrences label? naming no)
  | either _ cases => casesOccurrences label? naming cases
  | assign _ pairs => pairs.flatMap fun pair =>
    pair.lhs.targets label? naming ++ pair.rhs.reads label? naming
  | call _ _ arguments | macroCall _ _ arguments =>
    arguments.flatMap (Expression.reads label? naming)
  | withDo _ bindings body =>
    VariableDecl.listReads label? naming bindings ++
      listOccurrences label? (naming.hideAll bindings) body
  | print _ value | assert _ value | await _ value => value.reads label? naming
  | leave _ | skip _ | goto .. => []

def listOccurrences (label? : Option Uid) (naming : Naming) : List Statement → List Occurrence
  | [] => []
  | statement :: rest =>
    statement.occurrences label? naming ++ listOccurrences label? naming rest

def casesOccurrences (label? : Option Uid) (naming : Naming) :
    List (List Statement) → List Occurrence
  | [] => []
  | body :: rest => listOccurrences label? naming body ++ casesOccurrences label? naming rest

end

mutual

/-- The labels in a statement, in program order. -/
def labelUids : Statement → List Uid
  | labeled _ label body => label.uid :: listLabelUids body
  | whileDo _ _ body | withDo _ _ body => listLabelUids body
  | ifElse _ _ yes no => listLabelUids yes ++ listLabelUids no
  | either _ cases => casesLabelUids cases
  | assign .. | leave _ | skip _ | call .. | macroCall .. | print .. | assert .. | await ..
  | goto .. => []

def listLabelUids : List Statement → List Uid
  | [] => []
  | statement :: rest => statement.labelUids ++ listLabelUids rest

def casesLabelUids : List (List Statement) → List Uid
  | [] => []
  | body :: rest => listLabelUids body ++ casesLabelUids rest

end

end Statement

/-! ## Algorithms -/

namespace Algorithm

def procedureOccurrences (algorithm : Algorithm) : List Occurrence :=
  algorithm.procedures.flatMap fun procedure =>
    Statement.listOccurrences none (procedure.naming algorithm.naming) procedure.body

def processOccurrences (algorithm : Algorithm) : List Occurrence :=
  algorithm.processes.flatMap fun process =>
    Statement.listOccurrences none (process.naming algorithm.naming) process.body

def occurrences (algorithm : Algorithm) : List Occurrence :=
  algorithm.procedureOccurrences ++ algorithm.processOccurrences

/-- The labels of all processes and procedures. -/
def labelUids (algorithm : Algorithm) : List Uid :=
  (algorithm.processes.flatMap fun process => Statement.listLabelUids process.body) ++
    algorithm.procedures.flatMap fun procedure => Statement.listLabelUids procedure.body

/-- The own statements of a label write or read a global variable. -/
def Touches (algorithm : Algorithm) (label : Uid) (isWrite : Bool) (global : Uid) : Prop :=
  ∃ occurrence ∈ algorithm.occurrences, occurrence.label? = some label ∧
    occurrence.isTarget = isWrite ∧ occurrence.global? = some global

end Algorithm

end PlusCalGo
