import Mathlib.Data.List.Basic
import PlusCalGo.Algorithm.Uids
import PlusCalGo.Go.Body

/-!
# Renamed algorithms

An algorithm with other uids on its nodes. The uids found in the renamed tree are the renamed ones,
and what reads no uids finds the same in both trees.
-/

namespace PlusCalGo

/-- New uids for old ones. -/
abbrev Renaming := Uid → Uid

/-! ## Expressions -/

namespace Expression

mutual

def rename (r : Renaming) : Expression → Expression
  | number uid value => number (r uid) value
  | bool uid value => bool (r uid) value
  | string uid value => string (r uid) value
  | identifier uid name => identifier (r uid) name
  | index uid function params => index (r uid) (function.rename r) (listRename r params)
  | binary uid op lhs rhs => binary (r uid) op (lhs.rename r) (rhs.rename r)
  | unary uid op operand => unary (r uid) op (operand.rename r)
  | tuple uid elements => tuple (r uid) (listRename r elements)
  | ifElse uid condition yes no =>
    ifElse (r uid) (condition.rename r) (yes.rename r) (no.rename r)
  | apply uid name args => apply (r uid) name (listRename r args)

def listRename (r : Renaming) : List Expression → List Expression
  | [] => []
  | expression :: rest => expression.rename r :: listRename r rest

end

variable {r : Renaming}

theorem listRename_eq_map (expressions : List Expression) :
    listRename r expressions = expressions.map (rename r) := by
  induction expressions with
  | nil => rfl
  | cons expression rest ih => rw [listRename, ih, List.map_cons]

mutual

theorem rename_id (expression : Expression) : expression.rename id = expression := by
  cases expression with
  | index uid function params => simp [rename, rename_id function, listRename_id params]
  | binary uid op lhs rhs => simp [rename, rename_id lhs, rename_id rhs]
  | unary uid op operand => simp [rename, rename_id operand]
  | tuple uid elements => simp [rename, listRename_id elements]
  | ifElse uid condition yes no => simp [rename, rename_id condition, rename_id yes, rename_id no]
  | apply uid name args => simp [rename, listRename_id args]
  | _ => rfl

theorem listRename_id (expressions : List Expression) :
    listRename id expressions = expressions := by
  cases expressions with
  | nil => rfl
  | cons expression rest => rw [listRename, rename_id expression, listRename_id rest]

end

@[simp] theorem uid_rename (expression : Expression) :
    (expression.rename r).uid = r expression.uid := by
  cases expression <;> rfl

mutual

theorem uids_rename (expression : Expression) :
    (expression.rename r).uids = expression.uids.map r := by
  cases expression with
  | index uid function params =>
    simp [rename, uids, uids_rename function, listUids_rename params]
  | binary uid op lhs rhs => simp [rename, uids, uids_rename lhs, uids_rename rhs]
  | unary uid op operand => simp [rename, uids, uids_rename operand]
  | tuple uid elements => simp [rename, uids, listUids_rename elements]
  | ifElse uid condition yes no =>
    simp [rename, uids, uids_rename condition, uids_rename yes, uids_rename no]
  | apply uid name args => simp [rename, uids, listUids_rename args]
  | _ => rfl

theorem listUids_rename (expressions : List Expression) :
    listUids (listRename r expressions) = (listUids expressions).map r := by
  cases expressions with
  | nil => rfl
  | cons expression rest =>
    simp [listRename, listUids, uids_rename expression, listUids_rename rest]

end

mutual

theorem identifiers_rename (expression : Expression) :
    (expression.rename r).identifiers = expression.identifiers.map r := by
  cases expression with
  | index uid function params =>
    simp [rename, identifiers, identifiers_rename function, listIdentifiers_rename params]
  | binary uid op lhs rhs =>
    simp [rename, identifiers, identifiers_rename lhs, identifiers_rename rhs]
  | unary uid op operand => simp [rename, identifiers, identifiers_rename operand]
  | tuple uid elements => simp [rename, identifiers, listIdentifiers_rename elements]
  | ifElse uid condition yes no =>
    simp [rename, identifiers, identifiers_rename condition, identifiers_rename yes,
      identifiers_rename no]
  | apply uid name args => simp [rename, identifiers, listIdentifiers_rename args]
  | _ => rfl

theorem listIdentifiers_rename (expressions : List Expression) :
    listIdentifiers (listRename r expressions) = (listIdentifiers expressions).map r := by
  cases expressions with
  | nil => rfl
  | cons expression rest =>
    simp [listRename, listIdentifiers, identifiers_rename expression, listIdentifiers_rename rest]

end

theorem assignmentRoot?_rename (expression : Expression) :
    (expression.rename r).assignmentRoot? = expression.assignmentRoot?.map (rename r) := by
  induction expression using assignmentRoot?.induct with
  | case1 uid name => rfl
  | case2 uid function params ih => exact ih
  | case3 expression hidentifier hindex =>
    cases expression with
    | identifier uid name => exact absurd rfl (hidentifier uid name)
    | index uid function params => exact absurd rfl (hindex uid function params)
    | _ => rfl

end Expression

/-! ## Declarations and statements -/

def ConstantDecl.rename (r : Renaming) (decl : ConstantDecl) : ConstantDecl :=
  ⟨r decl.uid, decl.name, decl.value.map (Expression.rename r)⟩

def VariableDecl.rename (r : Renaming) (decl : VariableDecl) : VariableDecl :=
  ⟨r decl.uid, decl.name, decl.value.map (Expression.rename r), decl.resource, decl.location⟩

def Label.rename (r : Renaming) (label : Label) : Label := ⟨r label.uid, label.name⟩

def Mark.rename (r : Renaming) (mark : Mark) : Mark := ⟨r mark.uid, mark.location⟩

def AssignmentPair.rename (r : Renaming) (pair : AssignmentPair) : AssignmentPair :=
  ⟨pair.lhs.rename r, pair.rhs.rename r⟩

namespace Statement

mutual

def rename (r : Renaming) : Statement → Statement
  | labeled mark label body => labeled (mark.rename r) (label.rename r) (listRename r body)
  | whileDo mark condition body =>
    whileDo (mark.rename r) (condition.rename r) (listRename r body)
  | ifElse mark condition yes no =>
    ifElse (mark.rename r) (condition.rename r) (listRename r yes) (listRename r no)
  | either mark cases => either (mark.rename r) (casesRename r cases)
  | assign mark pairs => assign (mark.rename r) (pairs.map (AssignmentPair.rename r))
  | leave mark => leave (mark.rename r)
  | skip mark => skip (mark.rename r)
  | call mark target arguments =>
    call (mark.rename r) target (arguments.map (Expression.rename r))
  | macroCall mark target arguments =>
    macroCall (mark.rename r) target (arguments.map (Expression.rename r))
  | withDo mark bindings body =>
    withDo (mark.rename r) (bindings.map (VariableDecl.rename r)) (listRename r body)
  | print mark value => print (mark.rename r) (value.rename r)
  | assert mark value => assert (mark.rename r) (value.rename r)
  | await mark value => await (mark.rename r) (value.rename r)
  | goto mark target => goto (mark.rename r) target

def listRename (r : Renaming) : List Statement → List Statement
  | [] => []
  | statement :: rest => statement.rename r :: listRename r rest

def casesRename (r : Renaming) : List (List Statement) → List (List Statement)
  | [] => []
  | body :: rest => listRename r body :: casesRename r rest

end

variable {r : Renaming}

theorem listRename_eq_map (statements : List Statement) :
    listRename r statements = statements.map (rename r) := by
  induction statements with
  | nil => rfl
  | cons statement rest ih => rw [listRename, ih, List.map_cons]

@[simp] theorem length_casesRename (cases : List (List Statement)) :
    (casesRename r cases).length = cases.length := by
  induction cases with
  | nil => rfl
  | cons body rest ih => rw [casesRename, List.length_cons, List.length_cons, ih]

@[simp] theorem uid_rename (statement : Statement) :
    (statement.rename r).uid = r statement.uid := by
  cases statement <;> rfl

@[simp] theorem location_rename (statement : Statement) :
    (statement.rename r).location = statement.location := by
  cases statement <;> rfl

@[simp] theorem isLabeled_rename (statement : Statement) :
    (statement.rename r).isLabeled = statement.isLabeled := by
  cases statement <;> rfl

end Statement

theorem VariableDecl.rename_id (decl : VariableDecl) : decl.rename id = decl := by
  have hvalue : Expression.rename id = id := funext Expression.rename_id
  simp [rename, hvalue]

theorem AssignmentPair.rename_id (pair : AssignmentPair) : pair.rename id = pair := by
  simp [rename, Expression.rename_id]

namespace Statement

mutual

theorem rename_id (statement : Statement) : statement.rename id = statement := by
  have hvalue : Expression.rename id = id := funext Expression.rename_id
  have hpair : AssignmentPair.rename id = id := funext AssignmentPair.rename_id
  have hdecl : VariableDecl.rename id = id := funext VariableDecl.rename_id
  cases statement with
  | labeled mark label body => simp [rename, Mark.rename, Label.rename, listRename_id body]
  | whileDo mark condition body => simp [rename, Mark.rename, hvalue, listRename_id body]
  | ifElse mark condition yes no =>
    simp [rename, Mark.rename, hvalue, listRename_id yes, listRename_id no]
  | either mark cases => simp [rename, Mark.rename, casesRename_id cases]
  | withDo mark bindings body => simp [rename, Mark.rename, hdecl, listRename_id body]
  | _ => simp [rename, Mark.rename, hvalue, hpair]

theorem listRename_id (statements : List Statement) : listRename id statements = statements := by
  cases statements with
  | nil => rfl
  | cons statement rest => rw [listRename, rename_id statement, listRename_id rest]

theorem casesRename_id (cases : List (List Statement)) : casesRename id cases = cases := by
  cases cases with
  | nil => rfl
  | cons body rest => rw [casesRename, listRename_id body, casesRename_id rest]

end

end Statement

/-! ## Algorithms -/

def ProcessSelf.rename (r : Renaming) : ProcessSelf → ProcessSelf
  | single value => single (value.rename r)
  | range low high => range (low.rename r) (high.rename r)

def Procedure.rename (r : Renaming) (procedure : Procedure) : Procedure :=
  ⟨r procedure.uid, procedure.name, procedure.params.map (VariableDecl.rename r),
    procedure.locals.map (VariableDecl.rename r), Statement.listRename r procedure.body⟩

def Process.rename (r : Renaming) (process : Process) : Process :=
  ⟨r process.uid, process.name, r process.selfDecl, process.selfValue.rename r,
    process.locals.map (VariableDecl.rename r), Statement.listRename r process.body⟩

def Algorithm.rename (r : Renaming) (algorithm : Algorithm) : Algorithm :=
  ⟨algorithm.name, algorithm.constants.map (ConstantDecl.rename r),
    algorithm.globals.map (VariableDecl.rename r),
    algorithm.procedures.map (Procedure.rename r), algorithm.processes.map (Process.rename r)⟩

/-! ## Uids -/

section Uids

variable {r : Renaming}

theorem ConstantDecl.uids_rename (decl : ConstantDecl) :
    (decl.rename r).uids = decl.uids.map r := by
  cases hvalue : decl.value <;> simp [rename, uids, hvalue, Expression.uids_rename]

theorem VariableDecl.uids_rename (decl : VariableDecl) :
    (decl.rename r).uids = decl.uids.map r := by
  cases hvalue : decl.value <;> simp [rename, uids, hvalue, Expression.uids_rename]

theorem AssignmentPair.uids_rename (pair : AssignmentPair) :
    (pair.rename r).uids = pair.uids.map r := by
  simp [rename, uids, Expression.uids_rename]

/-- Uids found one after the other in items are renamed if those of each item are. -/
theorem flatMap_uids_rename {α : Type} {rename : α → α} {uids : α → List Uid}
    (h : ∀ item, uids (rename item) = (uids item).map r) (items : List α) :
    (items.map rename).flatMap uids = (items.flatMap uids).map r := by
  simp [List.flatMap_map, List.map_flatMap, h]

namespace Statement

mutual

theorem uids_rename (statement : Statement) : (statement.rename r).uids = statement.uids.map r := by
  have hvalue := Expression.uids_rename (r := r)
  have hvalues := flatMap_uids_rename hvalue
  cases statement with
  | labeled mark label body =>
    simp [rename, uids, Mark.rename, Label.rename, listUids_rename body]
  | whileDo mark condition body =>
    simp [rename, uids, Mark.rename, hvalue, listUids_rename body]
  | ifElse mark condition yes no =>
    simp [rename, uids, Mark.rename, hvalue, listUids_rename yes, listUids_rename no]
  | either mark cases => simp [rename, uids, Mark.rename, casesUids_rename cases]
  | assign mark pairs =>
    rw [rename, uids, flatMap_uids_rename AssignmentPair.uids_rename, uids, List.map_cons]
    rfl
  | withDo mark bindings body =>
    rw [rename, uids, flatMap_uids_rename VariableDecl.uids_rename, listUids_rename body, uids,
      List.map_cons, List.map_append]
    rfl
  | call mark target arguments =>
    rw [rename, uids, hvalues, uids, List.map_cons]
    rfl
  | macroCall mark target arguments =>
    rw [rename, uids, hvalues, uids, List.map_cons]
    rfl
  | _ => simp [rename, uids, Mark.rename, hvalue]

theorem listUids_rename (statements : List Statement) :
    listUids (listRename r statements) = (listUids statements).map r := by
  cases statements with
  | nil => rfl
  | cons statement rest =>
    simp [listRename, listUids, uids_rename statement, listUids_rename rest]

theorem casesUids_rename (cases : List (List Statement)) :
    casesUids (casesRename r cases) = (casesUids cases).map r := by
  cases cases with
  | nil => rfl
  | cons body rest => simp [casesRename, casesUids, listUids_rename body, casesUids_rename rest]

end

end Statement

theorem ProcessSelf.uids_rename (value : ProcessSelf) :
    (value.rename r).uids = value.uids.map r := by
  cases value <;> simp [rename, uids, Expression.uids_rename]

theorem Procedure.uids_rename (procedure : Procedure) :
    (procedure.rename r).uids = procedure.uids.map r := by
  have hdecls := flatMap_uids_rename (VariableDecl.uids_rename (r := r))
  simp only [rename, uids, hdecls, Statement.listUids_rename, List.map_cons, List.map_append]

theorem Process.uids_rename (process : Process) : (process.rename r).uids = process.uids.map r := by
  have hdecls := flatMap_uids_rename (VariableDecl.uids_rename (r := r))
  simp only [rename, uids, hdecls, ProcessSelf.uids_rename, Statement.listUids_rename,
    List.map_cons, List.map_append]

theorem Algorithm.uids_rename (algorithm : Algorithm) :
    (algorithm.rename r).uids = algorithm.uids.map r := by
  simp only [rename, uids, flatMap_uids_rename ConstantDecl.uids_rename,
    flatMap_uids_rename VariableDecl.uids_rename, flatMap_uids_rename Procedure.uids_rename,
    flatMap_uids_rename Process.uids_rename, List.map_append]

/-- The first uid that is repeated is the same one. -/
theorem Uid.firstRepeated?_map (hr : Function.Injective r) (seen uids : List Uid) :
    firstRepeated? (seen.map r) (uids.map r) = (firstRepeated? seen uids).map r := by
  induction uids generalizing seen with
  | nil => rfl
  | cons uid rest ih =>
    have hseen : r uid ∈ seen.map r ↔ uid ∈ seen := List.mem_map_of_injective hr
    simp only [List.map_cons, firstRepeated?, hseen]
    split
    · rfl
    · exact ih (uid :: seen)

end Uids

/-! ## What does not read uids -/

namespace Statement

variable {r : Renaming}

mutual

theorem transfersControl_rename (statement : Statement) :
    (statement.rename r).transfersControl = statement.transfersControl := by
  cases statement with
  | whileDo mark condition body => exact anyTransfersControl_rename body
  | ifElse mark condition yes no =>
    simp only [rename, transfersControl, anyTransfersControl_rename yes,
      anyTransfersControl_rename no]
  | either mark cases => exact anyCaseTransfersControl_rename cases
  | withDo mark bindings body => exact anyTransfersControl_rename body
  | _ => rfl

theorem anyTransfersControl_rename (statements : List Statement) :
    anyTransfersControl (listRename r statements) = anyTransfersControl statements := by
  cases statements with
  | nil => rfl
  | cons statement rest =>
    rw [listRename, anyTransfersControl, transfersControl_rename statement,
      anyTransfersControl_rename rest, anyTransfersControl]

theorem anyCaseTransfersControl_rename (cases : List (List Statement)) :
    anyCaseTransfersControl (casesRename r cases) = anyCaseTransfersControl cases := by
  cases cases with
  | nil => rfl
  | cons body rest =>
    rw [casesRename, anyCaseTransfersControl, anyTransfersControl_rename body,
      anyCaseTransfersControl_rename rest, anyCaseTransfersControl]

end

mutual

theorem jumpTargets_rename (statement : Statement) :
    (statement.rename r).jumpTargets = statement.jumpTargets := by
  cases statement with
  | labeled mark label body => exact listJumpTargets_rename body
  | whileDo mark condition body => exact listJumpTargets_rename body
  | ifElse mark condition yes no =>
    simp only [rename, jumpTargets, listJumpTargets_rename yes, listJumpTargets_rename no]
  | either mark cases => exact casesJumpTargets_rename cases
  | withDo mark bindings body => exact listJumpTargets_rename body
  | _ => rfl

theorem listJumpTargets_rename (statements : List Statement) :
    listJumpTargets (listRename r statements) = listJumpTargets statements := by
  cases statements with
  | nil => rfl
  | cons statement rest =>
    rw [listRename, listJumpTargets, jumpTargets_rename statement, listJumpTargets_rename rest,
      listJumpTargets]

theorem casesJumpTargets_rename (cases : List (List Statement)) :
    casesJumpTargets (casesRename r cases) = casesJumpTargets cases := by
  cases cases with
  | nil => rfl
  | cons body rest =>
    rw [casesRename, casesJumpTargets, listJumpTargets_rename body, casesJumpTargets_rename rest,
      casesJumpTargets]

end

end Statement

end PlusCalGo
