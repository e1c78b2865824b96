import PlusCalGo.Algorithm.Uids
import PlusCalGo.Definition
import PlusCalGo.Json.Basic
import PlusCalGo.Locking.Access
import PlusCalGo.Locking.Partition

/-!
# Atomicity

Every label is one atomic step. The global variables each step touches decide which labels share a
lock; the result is reported by names, and globals no step touches are warned about.
-/

namespace PlusCalGo

/-! ## Labels and the globals they touch -/

namespace Statement

mutual

/-- The labels of a statement in program order, without accesses yet. -/
def labels (owner : String) : Statement → List LabelAccesses
  | labeled _ label body =>
    ⟨label.uid, owner ++ "." ++ label.name, .empty, .empty⟩ :: listLabels owner body
  | whileDo _ _ body | withDo _ _ body => listLabels owner body
  | ifElse _ _ yes no => listLabels owner yes ++ listLabels owner no
  | either _ cases => casesLabels owner cases
  | assign .. | leave _ | skip _ | call .. | macroCall .. | print .. | assert .. | await ..
  | goto .. => []

def listLabels (owner : String) : List Statement → List LabelAccesses
  | [] => []
  | statement :: rest => statement.labels owner ++ listLabels owner rest

def casesLabels (owner : String) : List (List Statement) → List LabelAccesses
  | [] => []
  | statements :: rest => listLabels owner statements ++ casesLabels owner rest

end

end Statement

/-- The declarations of the global variables that occur in an expression. -/
def Definitions.globalsIn (definitions : Definitions) :
    List Uid → Except Diagnostic (List Uid)
  | [] => .ok []
  | identifier :: rest => do
    let declaration ← definitions.followReference identifier
    let globals ← definitions.globalsIn rest
    pure (if definitions.isGlobal declaration then declaration :: globals else globals)

namespace LabelAccesses

def add (accesses : LabelAccesses) (isWrite : Bool) (globals : List Uid) : LabelAccesses :=
  if isWrite then { accesses with writes := accesses.writes.union (.ofList globals) }
  else { accesses with reads := accesses.reads.union (.ofList globals) }

/-- Adds accesses to the first label with the uid, if there is one. -/
def addFirst? (label : Uid) (isWrite : Bool) (globals : List Uid) :
    List LabelAccesses → Option (List LabelAccesses)
  | [] => none
  | accesses :: rest =>
    if accesses.label = label then some (accesses.add isWrite globals :: rest)
    else (addFirst? label isWrite globals rest).map (accesses :: ·)

/-- Adds what one access touches to its label; of labels with one uid the latest counts. -/
def record (definitions : Definitions) (labels : List LabelAccesses) (access : Access) :
    Except Diagnostic (List LabelAccesses) := do
  let globals ← definitions.globalsIn access.expression.identifiers
  match addFirst? access.label.uid access.isWrite globals labels.reverse with
  | some back => pure back.reverse
  | none => throw (.of (.undeclaredLabel access.label.name))

def recordAll (definitions : Definitions) (labels : List LabelAccesses) :
    List Access → Except Diagnostic (List LabelAccesses)
  | [] => .ok labels
  | access :: rest => do recordAll definitions (← record definitions labels access) rest

/-- Adds the labels of a body and what they touch. -/
def recordBody (definitions : Definitions) (labels : List LabelAccesses) (owner : String)
    (body : List Statement) : Except Diagnostic (List LabelAccesses) := do
  let trace := Statement.bodyAccesses body
  let labels ← recordAll definitions (labels ++ Statement.listLabels owner body) trace.accesses
  match trace.problem? with
  | some problem => throw problem
  | none => pure labels

def recordBodies (definitions : Definitions) (labels : List LabelAccesses) :
    List (String × List Statement) → Except Diagnostic (List LabelAccesses)
  | [] => .ok labels
  | (owner, body) :: rest => do
    recordBodies definitions (← recordBody definitions labels owner body) rest

end LabelAccesses

/-- The bodies of an algorithm under their names, processes before procedures. -/
def Algorithm.bodies (algorithm : Algorithm) : List (String × List Statement) :=
  algorithm.processes.map (fun process => (process.name, process.body)) ++
    algorithm.procedures.map (fun procedure => (procedure.name, procedure.body))

/-! ## Report and warnings -/

structure LockGroupReport where
  group : LockGroup
  labels : List String
  reads : List String
  writes : List String

structure AtomicityReport where
  algorithm : String
  groups : List LockGroupReport
  /-- The labels that touch no global variable and run without a lock. -/
  unprotected : List String

/-- A global variable that no label touches. -/
structure Warning where
  globalName : String
  location : TextLocation
  file : Path

namespace AtomicityReport

def namesOf (definitions : Definitions) : List Uid → Except Diagnostic (List String)
  | [] => .ok []
  | uid :: rest => do
    let definition ← definitions.definition uid
    pure (definition.name :: (← namesOf definitions rest))

/-- Adds a label under its group. Groups are numbered in the order of the labels, so a new group
is the next one. -/
def addLabel (definitions : Definitions) (groups : LockGroups) (report : AtomicityReport)
    (accesses : LabelAccesses) : Except Diagnostic AtomicityReport := do
  match groups.groupOf? accesses.label with
  | none => pure { report with unprotected := report.unprotected ++ [accesses.name] }
  | some group =>
    let reported ← if group.index = report.groups.length then do
        let reads ← namesOf definitions (groups.readsOf group).toList
        let writes ← namesOf definitions (groups.writesOf group).toList
        pure (report.groups ++ [⟨group, [], reads, writes⟩])
      else pure report.groups
    match reported[group.index]? with
    | none => throw (.of (.groupOutOfOrder group))
    | some entry =>
      let entry := { entry with labels := entry.labels ++ [accesses.name] }
      pure { report with groups := reported.set group.index entry }

def addLabels (definitions : Definitions) (groups : LockGroups) (report : AtomicityReport) :
    List LabelAccesses → Except Diagnostic AtomicityReport
  | [] => .ok report
  | accesses :: rest => do
    addLabels definitions groups (← addLabel definitions groups report accesses) rest

private def namesToJson (names : List String) : Json := .array (names.map .string)

def toJson (report : AtomicityReport) : Json :=
  .object [
    ("algorithm", .string report.algorithm),
    ("lock_groups", .array (report.groups.map fun entry => .object [
      ("id", .integer entry.group.index), ("labels", namesToJson entry.labels),
      ("reads", namesToJson entry.reads), ("writes", namesToJson entry.writes)])),
    ("unprotected_labels", namesToJson report.unprotected)]

end AtomicityReport

def Warning.unused (definitions : Definitions) (labels : List LabelAccesses) : List Warning :=
  (definitions.globals.filter fun definition =>
    !labels.any fun accesses =>
      accesses.reads.toList.contains definition.uid ||
        accesses.writes.toList.contains definition.uid).map
    fun definition => ⟨definition.name, definition.location, .empty⟩

/-! ## Inference -/

structure Atomicity where
  groups : LockGroups
  report : AtomicityReport
  warnings : List Warning

/-- The lock groups of an algorithm. -/
def Algorithm.inferAtomicity (algorithm : Algorithm) (definitions : Definitions) :
    Except Diagnostic Atomicity := do
  let labels ← LabelAccesses.recordBodies definitions [] algorithm.bodies
  let (groups, problem?) := LockGroups.empty.partition labels
  if let some problem := problem? then throw problem
  let report ← AtomicityReport.addLabels definitions groups ⟨algorithm.name, [], []⟩ labels
  pure ⟨groups, report, Warning.unused definitions labels⟩

end PlusCalGo
