import PlusCalGo.Algorithm.UidSet
import PlusCalGo.Diagnostic

/-!
# Registry of lock groups

The lock group of each label, and the variables each group reads and writes.
-/

namespace PlusCalGo

/-- Assignments and accesses in the order in which they were added. -/
structure LockGroups where
  labels : List (Uid × LockGroup)
  reads : List (LockGroup × Uid)
  writes : List (LockGroup × Uid)

namespace LockGroups

def empty : LockGroups := ⟨[], [], []⟩

instance : Inhabited LockGroups := ⟨empty⟩

def groupOf? (groups : LockGroups) (label : Uid) : Option LockGroup :=
  (groups.labels.find? (·.1 = label)).map (·.2)

/-- Assigns a label to a group. A label keeps the group it has. -/
def addLabel (groups : LockGroups) (label : Uid) (group : LockGroup) :
    Except Diagnostic LockGroups :=
  match groups.groupOf? label with
  | some old => .error (.of (.labelRegrouped label old group))
  | none => .ok { groups with labels := groups.labels ++ [(label, group)] }

def group (groups : LockGroups) (label : Uid) : Except Diagnostic LockGroup :=
  match groups.groupOf? label with
  | some group => .ok group
  | none => .error (.of (.labelUngrouped label))

def addRead (groups : LockGroups) (group : LockGroup) (global : Uid) : LockGroups :=
  { groups with reads := groups.reads ++ [(group, global)] }

def addWrite (groups : LockGroups) (group : LockGroup) (global : Uid) : LockGroups :=
  { groups with writes := groups.writes ++ [(group, global)] }

/-- The variables among the accesses of one group. -/
private def accessesOf (accesses : List (LockGroup × Uid)) (group : LockGroup) : UidSet :=
  .ofList ((accesses.filter (·.1 = group)).map (·.2))

def readsOf (groups : LockGroups) (group : LockGroup) : UidSet := accessesOf groups.reads group

def writesOf (groups : LockGroups) (group : LockGroup) : UidSet := accessesOf groups.writes group

theorem mem_readsOf {groups : LockGroups} {group : LockGroup} {global : Uid} :
    global ∈ groups.readsOf group ↔ (group, global) ∈ groups.reads := by
  simp [readsOf, accessesOf]

theorem mem_writesOf {groups : LockGroups} {group : LockGroup} {global : Uid} :
    global ∈ groups.writesOf group ↔ (group, global) ∈ groups.writes := by
  simp [writesOf, accessesOf]

/-- One more than the highest group any label has, or zero. -/
def count (groups : LockGroups) : Nat :=
  groups.labels.foldl (fun n entry => max n (entry.2.index + 1)) 0

/-- All variables some group reads or writes. -/
def protectedVariables (groups : LockGroups) : UidSet :=
  .ofList ((groups.reads ++ groups.writes).map (·.2))

end LockGroups

end PlusCalGo
