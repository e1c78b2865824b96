import PlusCalGo.Locking.Registry

/-!
# Partition into lock groups

Two labels conflict if one writes a variable that the other reads or writes. Conflicting labels are
joined in a forest, and each tree whose labels touch a variable becomes a lock group, numbered by
its first label.
-/

namespace PlusCalGo

/-- The global variables one label touches. -/
structure LabelAccesses where
  label : Uid
  name : String
  reads : UidSet
  writes : UidSet

def LabelAccesses.touchesGlobals (accesses : LabelAccesses) : Bool :=
  !accesses.reads.isEmpty || !accesses.writes.isEmpty

/-! ## The forest -/

/-- Trees over the numbers below the length: each number has a parent, a root is its own. -/
structure Forest where
  parents : List Nat

namespace Forest

def singletons (size : Nat) : Forest := ⟨List.range size⟩

/-- The parent of a number; a number outside of the forest is its own. -/
def parent (forest : Forest) (node : Nat) : Nat := forest.parents[node]?.getD node

def setParent (forest : Forest) (node parent : Nat) : Forest := ⟨forest.parents.set node parent⟩

/-- Climbs from a number to its root and hangs every number on the way below its grandparent. Roots
are least in their trees, so a number is as many steps away from its root as it is large at most. -/
def climb : Nat → Forest → Nat → Forest × Nat
  | 0, forest, node => (forest, node)
  | steps + 1, forest, node =>
    if forest.parent node = node then (forest, node)
    else
      let grandparent := forest.parent (forest.parent node)
      climb steps (forest.setParent node grandparent) grandparent

def find (forest : Forest) (node : Nat) : Forest × Nat := climb node forest node

/-- Joins the trees of two numbers; the smaller root stays one. -/
def union (forest : Forest) (a b : Nat) : Forest :=
  let (forest, rootA) := forest.find a
  let (forest, rootB) := forest.find b
  if rootA = rootB then forest
  else if rootA < rootB then forest.setParent rootB rootA
  else forest.setParent rootA rootB

end Forest

/-! ## Grouping -/

/-- The labels joined so far, and the first label that writes each variable. -/
structure Conflicts where
  forest : Forest
  firstWriters : List (Uid × Nat)

namespace Conflicts

def firstWriter? (conflicts : Conflicts) (global : Uid) : Option Nat :=
  (conflicts.firstWriters.find? (·.1 = global)).map (·.2)

/-- A label writes a variable: it joins the first writer, or becomes it. -/
def addWrite (conflicts : Conflicts) (index : Nat) (global : Uid) : Conflicts :=
  match conflicts.firstWriter? global with
  | some writer => { conflicts with forest := conflicts.forest.union writer index }
  | none => { conflicts with firstWriters := (global, index) :: conflicts.firstWriters }

/-- A label reads a variable: it joins the first writer, if there is one. -/
def addRead (conflicts : Conflicts) (index : Nat) (global : Uid) : Conflicts :=
  match conflicts.firstWriter? global with
  | some writer => { conflicts with forest := conflicts.forest.union writer index }
  | none => conflicts

/-- Joins all conflicting labels: writers first, then the readers with them. -/
def ofLabels (labels : List LabelAccesses) : Conflicts :=
  let start : Conflicts := ⟨.singletons labels.length, []⟩
  let written := labels.zipIdx.foldl (fun conflicts (accesses, index) =>
    accesses.writes.toList.foldl (fun conflicts global => conflicts.addWrite index global)
      conflicts) start
  labels.zipIdx.foldl (fun conflicts (accesses, index) =>
    accesses.reads.toList.foldl (fun conflicts global => conflicts.addRead index global)
      conflicts) written

end Conflicts

/-- Gives each label that touches a variable the number of its root; `roots` are the roots numbered
so far, and `index` is the place of the first label. -/
def numberLabels (forest : Forest) (roots : List Nat) (index : Nat) :
    List LabelAccesses → List (LabelAccesses × LockGroup)
  | [] => []
  | accesses :: rest =>
    if accesses.touchesGlobals then
      let (forest, root) := forest.find index
      let roots := if root ∈ roots then roots else roots ++ [root]
      (accesses, ⟨roots.idxOf root⟩) :: numberLabels forest roots (index + 1) rest
    else numberLabels forest roots (index + 1) rest

/-- The lock group of each label that touches a variable, in the order of the labels. -/
def lockGroupsOf (labels : List LabelAccesses) : List (LabelAccesses × LockGroup) :=
  numberLabels (Conflicts.ofLabels labels).forest [] 0 labels

namespace LockGroups

/-- Adds a label with what it touches. -/
def register (groups : LockGroups) (accesses : LabelAccesses) (group : LockGroup) :
    Except Diagnostic LockGroups := do
  let groups ← groups.addLabel accesses.label group
  let groups :=
    accesses.reads.toList.foldl (fun groups global => groups.addRead group global) groups
  pure (accesses.writes.toList.foldl (fun groups global => groups.addWrite group global) groups)

/-- Adds labels one after the other, up to the first that cannot be added. -/
def registerAll (groups : LockGroups) :
    List (LabelAccesses × LockGroup) → LockGroups × Option Diagnostic
  | [] => (groups, none)
  | (accesses, group) :: rest =>
    match groups.register accesses group with
    | .ok groups => groups.registerAll rest
    | .error problem => (groups, some problem)

/-- Puts every label that touches a variable into its lock group. The labels come in the order of
their declaration. -/
def partition (groups : LockGroups) (labels : List LabelAccesses) :
    LockGroups × Option Diagnostic :=
  groups.registerAll (lockGroupsOf labels)

end LockGroups

end PlusCalGo
