import PlusCalGo.Go.Program

/-!
# Lowering with remarks

A second lowering of bodies, which makes the code of a statement from the codes of its parts and
puts a remark in front of every piece of code that runs for a statement: what the piece is for, the
innermost label around the statement, and the lock group the tracker has open there. Without its
remarks the code is the code of the first lowering.
-/

namespace PlusCalGo.Go

/-- What the code behind a remark is there for. -/
inductive Subject where
  /-- The text evaluates these expressions of a statement. -/
  | evaluates (expressions : List Expression)
  /-- The line calls a procedure with these arguments. -/
  | calls (arguments : List Expression)
  /-- The jump goes back to the beginning of the step. -/
  | retries
  /-- The label is reached from the code before it; `enters` unless its group is open already. -/
  | arrives (label : Label) (enters : Bool)

structure Remark where
  /-- The group the tracker has open. -/
  held : Option LockGroup
  /-- The innermost label around the statement. -/
  label? : Option Label
  subject : Subject

inductive Note where
  | call (call : SectionCall)
  | remark (remark : Remark)

/-- Code with remarks. -/
abbrev NotedCode := List (Code Note)

/-- The code without its remarks. -/
def NotedCode.erase (code : NotedCode) : List SectionCode :=
  Code.listExpand (fun | .call call => [.leaf call] | .remark _ => []) code

def NotedCode.ofCalls (calls : List SectionCall) : NotedCode :=
  calls.map fun call => .leaf (.call call)

/-! ## Steps of the tracker -/

namespace Tracker

/-- The call that closes the section. -/
def closing (tracker : Tracker) : List SectionCall :=
  match tracker.openGroup, tracker.label with
  | some group, some _ => [⟨tracker.strategy.value, .release, group⟩]
  | _, _ => []

/-- The call that gives the section up. -/
def aborting (tracker : Tracker) : List SectionCall :=
  match tracker.openGroup with
  | some group => [⟨tracker.strategy.value, .abort, group⟩]
  | none => []

/-- The call that opens the section of a label. -/
def opening (tracker : Tracker) (label : Uid) : List SectionCall :=
  match tracker.groups.value.groupOf? label with
  | some group => [⟨tracker.strategy.value, .acquire, group⟩]
  | none => []

def idle (tracker : Tracker) : Tracker := { tracker with openGroup := none, label := none }

def entered (tracker : Tracker) (label : Uid) (name : String) : Tracker :=
  { tracker with openGroup := tracker.groups.value.groupOf? label, label := some (label, name) }

/-- The group of the label is open already. -/
def continues (tracker : Tracker) (label : Uid) : Bool :=
  tracker.isOpen && tracker.openGroup = tracker.groups.value.groupOf? label

end Tracker

/-! ## The state along a body -/

/-- What lowering has to know when it comes to a statement: everything but the code made so far. -/
structure Progress where
  tracker : Tracker
  /-- The labels declared. -/
  labels : List String
  /-- The names jumped to. -/
  targets : List String
  nextTemporary : Nat
  imports : Imports

abbrev Noting := StateT Progress (Except Diagnostic)

namespace Noting

instance : Append (Noting NotedCode) :=
  ⟨fun first second => do pure ((← first) ++ (← second))⟩

def attempt {α : Type} (result : Except Diagnostic α) : Noting α := fun progress =>
  match result with
  | .ok value => .ok (value, progress)
  | .error problem => .error problem

def tracker : Noting Tracker := fun progress => .ok (progress.tracker, progress)

def setTracker (tracker : Tracker) : Noting Unit := fun progress =>
  .ok ((), { progress with tracker := tracker })

def setImports (change : Imports → Imports) : Noting Unit := fun progress =>
  .ok ((), { progress with imports := change progress.imports })

/-- Takes numbers for fresh variables, and gives the first one. -/
def takeTemporaries (count : Nat) : Noting Nat := fun progress =>
  .ok (progress.nextTemporary, { progress with nextTemporary := progress.nextTemporary + count })

def remark (label? : Option Label) (subject : Subject) : Noting NotedCode := fun progress =>
  .ok ([.leaf (.remark ⟨progress.tracker.openGroup, label?, subject⟩)], progress)

def emit (code : Code Note) : Noting NotedCode := pure [code]

def emitLine (text : String) : Noting NotedCode := emit (.line text)

def declareLabel (name : String) : Noting NotedCode := fun progress =>
  if name ∈ progress.labels then .error (.of (.codeLabelRedeclared name))
  else .ok ([.label name], { progress with labels := name :: progress.labels })

def goTo (name : String) : Noting NotedCode := fun progress =>
  .ok ([.goto name], { progress with targets := name :: progress.targets })

def close : Noting NotedCode := fun progress =>
  .ok (.ofCalls progress.tracker.closing, { progress with tracker := progress.tracker.idle })

def start (label : Uid) (name : String) : Noting NotedCode := fun progress =>
  if progress.tracker.continues label then .ok ([], progress)
  else if name ∈ progress.labels then
    .ok (.ofCalls (progress.tracker.closing ++ progress.tracker.opening label),
      { progress with tracker := progress.tracker.entered label name })
  else .error (.of (.sectionBeforeLabel name))

def endLoop : Option (Uid × String) → Noting NotedCode
  | some (label, name) => start label name
  | none => close

/-- Gives the step up and goes back to its label. -/
def abort (label? : Option Label) : Noting NotedCode := fun progress =>
  match progress.tracker.label with
  | none => .error (.of .abortOutsideLabel)
  | some (_, name) =>
    .ok (NotedCode.ofCalls progress.tracker.aborting ++
        [.leaf (.remark ⟨none, label?, .retries⟩), .goto name],
      { progress with tracker := progress.tracker.idle, targets := name :: progress.targets })

/-- The remark in front of a label. -/
def arrival (label : Label) : Noting NotedCode := do
  remark (some label) (.arrives label !(← tracker).continues label.uid)

/-- A branch on a copy of the tracker, with the tracker it leaves. -/
def branch (closeSection : Bool) (body : Noting NotedCode) : Noting (NotedCode × Tracker) := do
  let before ← tracker
  let code ← body ++ if closeSection then close else pure []
  let after ← tracker
  setTracker before
  pure (code, after)

end Noting

/-! ## Statements -/

/-- The texts of the targets and values of an assignment. -/
def pairTexts (definitions : Definitions) :
    List AssignmentPair → Except Diagnostic (List (AssignmentPair × String × String))
  | [] => .ok []
  | pair :: rest => do
    let target ← pair.lhs.toGo definitions
    let value ← pair.rhs.toGo definitions
    pure ((pair, target, value) :: (← pairTexts definitions rest))

/-- A simultaneous assignment with a remark in front of each line. -/
def notedSimultaneous (note : List Expression → Code Note) (first : Nat)
    (pairs : List (AssignmentPair × String × String)) : Code Note :=
  let named := pairs.zipIdx.map fun (pair, index) =>
    ("pgoTmp" ++ Nat.repr (first + index), pair)
  .block (named.flatMap (fun (temporary, pair, _, value) =>
      [note [pair.rhs], .line (temporary ++ " := " ++ value)]) ++
    named.flatMap (fun (temporary, pair, target, _) =>
      [note [pair.lhs], .line (target ++ " = " ++ temporary)]))

open Noting

/-- An assignment of which the targets and values are known. -/
def noteAssign (label? : Option Label) (pairs : List (AssignmentPair × String × String)) :
    Noting NotedCode :=
  match pairs with
  | [(pair, target, value)] =>
    remark label? (.evaluates [pair.lhs, pair.rhs]) ++ emitLine (target ++ " = " ++ value)
  | _ => do
    let first ← takeTemporaries pairs.length
    let held := (← tracker).openGroup
    emit (notedSimultaneous (fun expressions =>
      .leaf (.remark ⟨held, label?, .evaluates expressions⟩)) first pairs)

def noteBindings (definitions : Definitions) (label? : Option Label) :
    List VariableDecl → Noting NotedCode
  | [] => pure []
  | decl :: rest =>
    match decl.value with
    | none => throw (.of (.bindingWithoutValue decl.name))
    | some value => do
      let text ← attempt (value.toGo definitions)
      remark label? (.evaluates [value]) ++ (emitLine (decl.name ++ " := " ++ text) ++
        (remark label? (.evaluates []) ++ (emitLine ("_ = " ++ decl.name) ++
          noteBindings definitions label? rest)))

mutual

/-- The code of a statement inside the step of a label. -/
def noteStatement (definitions : Definitions) (targets : List String) (label? : Option Label) :
    Statement → Noting NotedCode
  | .labeled _ label body =>
    (if label.name ∈ targets then close else pure []) ++ (arrival label ++
      (declareLabel label.name ++ (start label.uid label.name ++
        noteStatements definitions targets (some label) body)))
  | .whileDo _ condition body => do
    let text ← attempt (condition.toGo definitions)
    let entry ← tracker
    let inner ← remark label? (.evaluates [condition]) ++
      (emit (.branch ("!" ++ text) [.line "break"] []) ++
        (noteStatements definitions targets label? body ++ endLoop entry.label))
    let after ← tracker
    attempt (after.checkCompatible entry)
    pure [.loop inner]
  | .ifElse _ condition yes no => do
    let text ← attempt (condition.toGo definitions)
    let note ← remark label? (.evaluates [condition])
    let closeSection := Statement.anyTransfersControl yes || Statement.anyTransfersControl no
    let (yes, yesTracker) ← branch closeSection (noteStatements definitions targets label? yes)
    let (no, noTracker) ← branch closeSection (noteStatements definitions targets label? no)
    attempt (yesTracker.checkCompatible noTracker)
    setTracker yesTracker
    pure (note ++ [.branch text yes no])
  | .either _ cases => do
    let note ← remark label? (.evaluates [])
    let closeSection := Statement.anyCaseTransfersControl cases
    let (bodies, first) ← noteCases definitions targets label? closeSection none cases
    if let some first := first then setTracker first
    setImports fun imports => { imports with rand := true }
    pure (note ++ [.switch ("rand.Intn(" ++ Nat.repr cases.length ++ ")") bodies])
  | .assign _ pairs => do noteAssign label? (← attempt (pairTexts definitions pairs))
  | .leave _ => close ++ emitLine "return"
  | .skip _ => pure []
  | .call _ target arguments => do
    let texts ← attempt (Expression.listToGo definitions arguments)
    close ++ (remark label? (.calls arguments) ++
      emitLine (target ++ "(" ++ ", ".intercalate ("self" :: texts) ++ ")"))
  | .macroCall _ target _ => throw (.of (.macroInCode target))
  | .withDo _ bindings body => do
    let inner ← noteBindings definitions label? bindings ++
      noteStatements definitions targets label? body
    pure [.block inner]
  | .print _ value => do
    let text ← attempt (value.toGo definitions)
    setImports fun imports => { imports with fmt := true }
    remark label? (.evaluates [value]) ++ emitLine ("fmt.Println(" ++ text ++ ")")
  | .assert _ value => do
    let text ← attempt (value.toGo definitions)
    let message := Text.quoted ("assertion failed: " ++ text)
    remark label? (.evaluates [value]) ++
      emit (.branch ("!" ++ text) [.line ("panic(" ++ message ++ ")")] [])
  | .await _ value => do
    let text ← attempt (value.toGo definitions)
    let note ← remark label? (.evaluates [value])
    let (retry, _) ← branch false (abort label?)
    pure (note ++ [.branch ("!" ++ text) retry []])
  | .goto _ target =>
    close ++ if target = Label.done then emitLine "return" else goTo target

def noteStatements (definitions : Definitions) (targets : List String) (label? : Option Label) :
    List Statement → Noting NotedCode
  | [] => pure []
  | statement :: rest =>
    noteStatement definitions targets label? statement ++
      noteStatements definitions targets label? rest

def noteCases (definitions : Definitions) (targets : List String) (label? : Option Label)
    (closeSection : Bool) (first : Option Tracker) :
    List (List Statement) → Noting (List NotedCode × Option Tracker)
  | [] => pure ([], first)
  | body :: rest => do
    let (code, tracker) ←
      branch closeSection (noteStatements definitions targets label? body)
    if let some first := first then attempt (first.checkCompatible tracker)
    let (codes, first) ← noteCases definitions targets label? closeSection
      (some (first.getD tracker)) rest
    pure (code :: codes, first)

end

/-- The whole body of a process or procedure. -/
def noteBody (definitions : Definitions) (body : List Statement) : Noting NotedCode :=
  noteStatements definitions (Statement.listJumpTargets body) none body

/-! ## Functions -/

def noteDeclare (name : String) (declaration : Declaration) : Noting NotedCode :=
  emitLine declaration.render ++ emitLine ("_ = " ++ name)

def noteLocals (definitions : Definitions) : List VariableDecl → Noting NotedCode
  | [] => pure []
  | decl :: rest => do
    let declaration ← attempt (declarationOf definitions decl)
    noteDeclare decl.name declaration ++ noteLocals definitions rest

def noteCopies : List VariableDecl → Noting NotedCode
  | [] => pure []
  | decl :: rest =>
    noteDeclare decl.name (.zero decl.name decl.resource.goType) ++ noteCopies rest

/-- The declarations and the body of a function, up to its end. -/
def noteFunction (definitions : Definitions) (copies locals : List VariableDecl)
    (body : List Statement) : Noting NotedCode :=
  noteCopies copies ++ (noteLocals definitions locals ++ (noteBody definitions body ++ close))

/-- Where lowering a function begins. -/
def FunctionContext.start (context : FunctionContext) (imports : Imports) (owner : Uid) :
    Progress :=
  ⟨Tracker.new ⟨0, context.groups⟩ ⟨0, context.strategy⟩ owner, [], [], 0, imports⟩

/-- The body of a function with remarks, and the state at its end. -/
def FunctionContext.noted (context : FunctionContext) (imports : Imports) (owner : Uid)
    (locals : List VariableDecl) (body : List Statement) :
    Except Diagnostic (NotedCode × Progress) :=
  noteFunction context.definitions context.copies locals body (context.start imports owner)

end PlusCalGo.Go
