import PlusCalGo.Go.Builder
import PlusCalGo.Go.Section

/-!
# Tracking critical sections

A tracker follows one body while its code is made and decides where lock groups are acquired and
released. It is idle, or one group is open. A label opens its group, after closing another one;
control transfers close it; a failed `await` aborts it and jumps back to the label of the step.
Branches work on copies of the tracker, which must agree in the end.
-/

namespace PlusCalGo.Go

/-- Something many hold on to: two handles are of the same thing if their numbers are equal. -/
structure Handle (α : Type) where
  number : Nat
  value : α

structure Tracker where
  groups : Handle LockGroups
  strategy : Handle Strategy
  process : Uid
  /-- The open group. -/
  openGroup : Option LockGroup
  /-- The label the step began at. A label without group is kept too, since it can be retried. -/
  label : Option (Uid × String)

/-- A tracker and the body it makes code for. -/
structure Emission where
  tracker : Tracker
  builder : Builder SectionCall

/-- An operation on a tracker and its code; what it has done before a problem stays done. -/
abbrev Emit := EStateM Diagnostic Emission

namespace Tracker

def new (groups : Handle LockGroups) (strategy : Handle Strategy) (process : Uid) : Tracker :=
  ⟨groups, strategy, process, none, none⟩

def isOpen (tracker : Tracker) : Bool := tracker.openGroup.isSome

def labelName (tracker : Tracker) : Option String := tracker.label.map (·.2)

def labelUid (tracker : Tracker) : Option Uid := tracker.label.map (·.1)

/-- Two trackers for alternative paths of one piece of code must be in the same state. -/
def checkCompatible (first second : Tracker) : Except Diagnostic Unit :=
  if first.groups.number ≠ second.groups.number then .error (.of .otherRegistry)
  else if first.strategy.number ≠ second.strategy.number then .error (.of .otherStrategy)
  else if first.process ≠ second.process then
    .error (.of (.otherProcess first.process second.process))
  else if first.openGroup ≠ second.openGroup then
    .error (.of (.otherGroup first.openGroup second.openGroup))
  else if first.labelUid ≠ second.labelUid then
    .error (.of (.otherLabel first.labelName second.labelName))
  else if first.labelName ≠ second.labelName then
    .error (.of (.otherLabelName first.labelUid first.labelName second.labelName))
  else .ok ()

end Tracker

namespace Emission

/-- Puts an action of the tracker's strategy into the code. -/
def addCall (emission : Emission) (action : SectionAction) (group : LockGroup) : Emission :=
  { emission with
    builder := emission.builder.add (.leaf ⟨emission.tracker.strategy.value, action, group⟩) }

/-- Closes the open section, if there is one. The tracker is idle afterwards. -/
def close (emission : Emission) : Emission :=
  let emission := match emission.tracker.openGroup, emission.tracker.label with
    | some group, some _ => emission.addCall .release group
    | _, _ => emission
  { emission with tracker := { emission.tracker with openGroup := none, label := none } }

/-- Begins the step of a label, whose group is not the open one. -/
def enter (emission : Emission) (label : Uid) (name : String) : Emission :=
  let tracker := { emission.tracker with label := some (label, name) }
  match tracker.groups.value.groupOf? label with
  | some group =>
    Emission.addCall { emission with tracker := { tracker with openGroup := some group } }
      .acquire group
  | none => { emission with tracker := tracker }

end Emission

namespace Emit

def liftExcept {σ α : Type} : Except Diagnostic α → EStateM Diagnostic σ α
  | .ok value => pure value
  | .error problem => throw problem

/-- Closes the open section, if there is one. -/
def close : Emit Unit := modify Emission.close

/-- Code generation has reached a label. If its group is open already, nothing happens. -/
def start (label : Uid) (name : String) : Emit Unit := do
  let tracker := (← get).tracker
  if tracker.isOpen && tracker.openGroup = tracker.groups.value.groupOf? label then pure ()
  else do
    if tracker.isOpen then close
    liftExcept ((← get).builder.ensureLabelDeclared name)
    modify (·.enter label name)

/-- Gives the step up: the section is left without storing, and the label is jumped back to. -/
def abort : Emit Unit := do
  let emission ← get
  match emission.tracker.label with
  | none => throw (.of .abortOutsideLabel)
  | some (_, name) => do
    let aborted := match emission.tracker.openGroup with
      | some group => emission.addCall .abort group
      | none => emission
    set { aborted with
      tracker := { emission.tracker with openGroup := none, label := none }
      builder := aborted.builder.goTo name }

/-- Puts the tracker at the end of a loop back where it was at the condition, given the label it
had there. Without a label a section that the body left open is closed. -/
def endLoop : Option (Uid × String) → Emit Unit
  | some (label, name) => start label name
  | none => close

end Emit

end PlusCalGo.Go
