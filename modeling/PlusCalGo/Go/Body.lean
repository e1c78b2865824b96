import PlusCalGo.Go.Expression
import PlusCalGo.Go.Tracker

/-!
# Lowering bodies

The body of a process or procedure as Go code. The tracker goes through the statements in program
order; branches work on copies of it, which are reconciled after them.
-/

namespace PlusCalGo

namespace Statement

mutual

/-- The names that explicit jumps of a statement go to. -/
def jumpTargets : Statement → List String
  | goto _ target => [target]
  | labeled _ _ body | whileDo _ _ body | withDo _ _ body => listJumpTargets body
  | ifElse _ _ yes no => listJumpTargets yes ++ listJumpTargets no
  | either _ cases => casesJumpTargets cases
  | assign .. | leave _ | skip _ | call .. | macroCall .. | print .. | assert .. | await .. => []

def listJumpTargets : List Statement → List String
  | [] => []
  | statement :: rest => statement.jumpTargets ++ listJumpTargets rest

def casesJumpTargets : List (List Statement) → List String
  | [] => []
  | statements :: rest => listJumpTargets statements ++ casesJumpTargets rest

end

end Statement

namespace Go

/-- The imports that depend on what the bodies use. -/
structure Imports where
  fmt : Bool
  rand : Bool
deriving DecidableEq

def Imports.none : Imports := ⟨false, false⟩

/-- A body while it is lowered. -/
structure Lowering where
  emission : Emission
  /-- The number of the next variable for a simultaneous assignment. -/
  nextTemporary : Nat
  imports : Imports

abbrev Lower := EStateM Diagnostic Lowering

namespace Lower

def emit {α : Type} (operation : Emit α) : Lower α := fun state =>
  match operation state.emission with
  | .ok value emission => .ok value { state with emission := emission }
  | .error problem emission => .error problem { state with emission := emission }

def add (code : SectionCode) : Lower Unit :=
  emit (modify fun emission => { emission with builder := emission.builder.add code })

def addLine (text : String) : Lower Unit := add (.line text)

def tracker : Lower Tracker := do pure (← get).emission.tracker

def openBlock : Lower Unit :=
  emit (modify fun emission => { emission with builder := emission.builder.openBlock })

def closeBlock : Lower (List SectionCode) := emit do
  let (code, builder) ← Emit.liftExcept (← get).builder.closeBlock
  modify fun emission => { emission with builder := builder }
  pure code

def declareLabel (name : String) : Lower Unit := emit do
  let builder ← Emit.liftExcept ((← get).builder.declareLabel name)
  modify fun emission => { emission with builder := builder }

def goTo (name : String) : Lower Unit :=
  emit (modify fun emission => { emission with builder := emission.builder.goTo name })

def expression (definitions : Definitions) (expression : Expression) : Lower String :=
  Emit.liftExcept (expression.toGo definitions)

def expressions (definitions : Definitions) (expressions : List Expression) : Lower (List String) :=
  Emit.liftExcept (Expression.listToGo definitions expressions)

/-- Puts the tracker that was there before back after an operation, and gives the one it left. -/
def onCopy {α : Type} (operation : Lower α) : Lower (α × Tracker) := fun state =>
  let restore (after : Lowering) : Lowering :=
    { after with emission := { after.emission with tracker := state.emission.tracker } }
  match operation state with
  | .ok value after => .ok (value, after.emission.tracker) (restore after)
  | .error problem after => .error problem (restore after)

/-- Lowers a branch into a block of its own, on a copy of the tracker. -/
def branch (closeSection : Bool) (body : Lower Unit) : Lower (List SectionCode × Tracker) :=
  onCopy do
    openBlock
    body
    if closeSection then emit Emit.close
    closeBlock

def setTracker (tracker : Tracker) : Lower Unit :=
  emit (modify fun emission => { emission with tracker := tracker })

/-- The targets and values of an assignment, pair by pair. -/
def pairs (definitions : Definitions) : List AssignmentPair → Lower (List (String × String))
  | [] => pure []
  | pair :: rest => do
    let target ← expression definitions pair.lhs
    let value ← expression definitions pair.rhs
    pure ((target, value) :: (← pairs definitions rest))

/-- A simultaneous assignment: all values are put into fresh variables before the first target
changes. -/
def simultaneous (first : Nat) (pairs : List (String × String)) : SectionCode :=
  let named := pairs.zipIdx.map fun ((target, value), index) =>
    ("pgoTmp" ++ Nat.repr (first + index), target, value)
  .block (named.map (fun (temporary, _, value) => .line (temporary ++ " := " ++ value)) ++
    named.map (fun (temporary, target, _) => .line (target ++ " = " ++ temporary)))

/-- Gives the bindings of a `with` their values. Go refuses variables that are not used. -/
def bindings (definitions : Definitions) : List VariableDecl → Lower Unit
  | [] => pure ()
  | decl :: rest => do
    match decl.value with
    | none => throw (.of (.bindingWithoutValue decl.name))
    | some value => do
      let value ← expression definitions value
      addLine (decl.name ++ " := " ++ value)
      addLine ("_ = " ++ decl.name)
    bindings definitions rest

end Lower

open Lower

mutual

/-- Lowers a statement. The names in `targets` are jumped to somewhere in the body: their labels are
reached with no section open, whichever way. -/
def lowerStatement (definitions : Definitions) (targets : List String) : Statement → Lower Unit
  | .labeled _ label body => do
    if label.name ∈ targets then emit Emit.close
    declareLabel label.name
    emit (Emit.start label.uid label.name)
    lowerStatements definitions targets body
  | .whileDo _ condition body => do
    let condition ← expression definitions condition
    let entry ← tracker
    openBlock
    add (.branch ("!" ++ condition) [.line "break"] [])
    lowerStatements definitions targets body
    emit (Emit.endLoop entry.label)
    let body ← closeBlock
    add (.loop body)
    -- the loop is left at its condition, so in the state it was entered in
    Emit.liftExcept ((← tracker).checkCompatible entry)
  | .ifElse _ condition yes no => do
    let condition ← expression definitions condition
    let closeSection := Statement.anyTransfersControl yes || Statement.anyTransfersControl no
    let (yes, yesTracker) ← branch closeSection (lowerStatements definitions targets yes)
    let (no, noTracker) ← branch closeSection (lowerStatements definitions targets no)
    Emit.liftExcept (yesTracker.checkCompatible noTracker)
    setTracker yesTracker
    add (.branch condition yes no)
  | .either _ cases => do
    let closeSection := Statement.anyCaseTransfersControl cases
    let (bodies, first) ← lowerCases definitions targets closeSection none cases
    if let some first := first then setTracker first
    modify fun state => { state with imports := { state.imports with rand := true } }
    add (.switch ("rand.Intn(" ++ Nat.repr cases.length ++ ")") bodies)
  | .assign _ pairs => do
    let lowered ← Lower.pairs definitions pairs
    match lowered with
    | [(target, value)] => addLine (target ++ " = " ++ value)
    | _ => do
      let next := (← get).nextTemporary
      modify fun state => { state with nextTemporary := next + lowered.length }
      add (simultaneous next lowered)
  | .leave _ => do
    emit Emit.close
    addLine "return"
  | .skip _ => pure ()
  | .call _ target arguments => do
    let arguments ← expressions definitions arguments
    emit Emit.close
    addLine (target ++ "(" ++ ", ".intercalate ("self" :: arguments) ++ ")")
  | .macroCall _ target _ => throw (.of (.macroInCode target))
  | .withDo _ bindings body => do
    openBlock
    Lower.bindings definitions bindings
    lowerStatements definitions targets body
    add (.block (← closeBlock))
  | .print _ value => do
    let value ← expression definitions value
    modify fun state => { state with imports := { state.imports with fmt := true } }
    addLine ("fmt.Println(" ++ value ++ ")")
  | .assert _ value => do
    let condition ← expression definitions value
    let message := Text.quoted ("assertion failed: " ++ condition)
    add (.branch ("!" ++ condition) [.line ("panic(" ++ message ++ ")")] [])
  | .await _ value => do
    let condition ← expression definitions value
    -- only the retry gives the step up, the way on keeps it
    let (retry, _) ← branch false (emit Emit.abort)
    add (.branch ("!" ++ condition) retry [])
  | .goto _ target => do
    emit Emit.close
    if target = Label.done then addLine "return" else goTo target

def lowerStatements (definitions : Definitions) (targets : List String) :
    List Statement → Lower Unit
  | [] => pure ()
  | statement :: rest => do
    lowerStatement definitions targets statement
    lowerStatements definitions targets rest

/-- Lowers the cases of a choice, whose trackers must agree with the first one. -/
def lowerCases (definitions : Definitions) (targets : List String) (closeSection : Bool)
    (first : Option Tracker) :
    List (List Statement) → Lower (List (List SectionCode) × Option Tracker)
  | [] => pure ([], first)
  | body :: rest => do
    let (code, tracker) ← branch closeSection (lowerStatements definitions targets body)
    if let some first := first then Emit.liftExcept (first.checkCompatible tracker)
    let (codes, first) ← lowerCases definitions targets closeSection
      (some (first.getD tracker)) rest
    pure (code :: codes, first)

end

/-- Lowers the whole body of a process or procedure. -/
def lowerBody (definitions : Definitions) (body : List Statement) : Lower Unit :=
  lowerStatements definitions (Statement.listJumpTargets body) body

end Go

end PlusCalGo
