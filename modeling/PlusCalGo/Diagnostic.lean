import PlusCalGo.Algorithm.Basic
import PlusCalGo.Json.Fault
import PlusCalGo.Locking.LockGroup
import PlusCalGo.Project.Path
import PlusCalGo.Toml.Fault

/-!
# Diagnostics

Everything that can be wrong with an algorithm, a project or the compiler itself, with the text, the
stage and the suggestions that go with it.
-/

namespace PlusCalGo

/-- What a reader of the message should look at: the algorithm's text, its rules, a file, the
configuration, or the compiler. -/
inductive DiagnosticKind where
  | malformed
  | rule
  | file
  | config
  | internal
deriving DecidableEq

/-- What the operating system has to say against a file operation. -/
inductive FileFailure where
  | notFound
  | alreadyExists
  | notDirectory
  | isDirectory
  | nameTooLong
  | invalidName
  | notUtf8
  /-- Anything else, with the system's own words and number. -/
  | system (details : String) (code : Nat)
deriving DecidableEq

def FileFailure.text : FileFailure → String
  | notFound => "No such file or directory (os error 2)"
  | alreadyExists => "File exists (os error 17)"
  | notDirectory => "Not a directory (os error 20)"
  | isDirectory => "Is a directory (os error 21)"
  | nameTooLong => "File name too long (os error 36)"
  | invalidName => "file name contained an unexpected NUL byte"
  | notUtf8 => "stream did not contain valid UTF-8"
  | system details code => details ++ " (os error " ++ Nat.repr code ++ ")"

/-- A lock group or label as trackers show it: there may be none. -/
def showOption (name : String) : Option String → String
  | none => "None"
  | some text => "Some(" ++ name ++ "(" ++ text ++ "))"

inductive Problem where
  -- reading
  | malformedAlgorithm (fault : Json.Fault)
  -- declarations and names
  | duplicateUid (uid : Uid)
  | registeredTwice (uid : Uid) (name : String)
  | unresolvedIdentifier (identifier : Uid)
  | unregistered (declaration : Uid)
  | alreadyDeclared (name : String)
  | unknownIdentifier (name : String)
  | emptyEither
  | invalidAssignmentTarget
  | undeclaredProcedure (target : String)
  | wrongArity (target : String) (arity given : Nat)
  | macroInResolution (target : String)
  | bindingNeedsValue (name : String)
  -- labels
  | reservedLabel
  | duplicateLabel (name : String)
  | unknownGotoTarget (target : String)
  | missingLabel
  -- lock groups
  | labelRegrouped (label : Uid) (old new : LockGroup)
  | labelUngrouped (label : Uid)
  | outsideLabel (statement : Uid)
  | macroInInference (target : String)
  | targetNotVariable (expression : Uid)
  | undeclaredLabel (name : String)
  | groupOutOfOrder (group : LockGroup)
  -- Go code
  | macroInCode (target : String)
  | bindingWithoutValue (name : String)
  | blockNotOpen
  | codeLabelRedeclared (name : String)
  | sectionBeforeLabel (name : String)
  | unclosedBlocks (count : Nat)
  | gotoWithoutLabel (name : String)
  | abortOutsideLabel
  | otherRegistry
  | otherStrategy
  | otherProcess (first second : Uid)
  | otherGroup (first second : Option LockGroup)
  | otherLabel (first second : Option String)
  | otherLabelName (label : Option Uid) (first second : Option String)
  | unsharedResource (name : String) (resource : ResourceKind)
  -- projects
  | notFound
  | unknownEntry
  | unreadableConfig (failure : FileFailure)
  | unreadableAlgorithm (failure : FileFailure)
  | uncreatedDirectory (failure : FileFailure)
  | unwrittenFile (failure : FileFailure)
  | invalidConfig
  | wrongConfig (fault : Toml.Fault)
  | missingInput
  | emptyPackage
  | noEndpoint
  | noTimeout
  | noOutput
deriving DecidableEq

namespace Problem

private def groupText (group : Option LockGroup) : String :=
  showOption "LockGroupId" (group.map LockGroup.text)

private def labelText (name : Option String) : String :=
  showOption "GoLabelName" (name.map Text.quoted)

private def resourceText : ResourceKind → String
  | .plain => "Plain"
  | .slice => "Slice"
  | .map => "Map"

def message : Problem → String
  | malformedAlgorithm fault => "Malformed algorithm: " ++ fault.text
  | duplicateUid uid => "Uid " ++ uid.text ++ " is attached to more than one node"
  | registeredTwice uid name =>
    "Declaration " ++ uid.text ++ " ('" ++ name ++ "') was registered twice"
  | unresolvedIdentifier uid =>
    "Identifier " ++ uid.text ++ " was never resolved to a declaration"
  | unregistered uid => "No declaration registered for " ++ uid.text
  | alreadyDeclared name => "'" ++ name ++ "' is already declared in this scope"
  | unknownIdentifier name => "Unknown identifier '" ++ name ++ "'"
  | emptyEither => "'either' needs at least one branch"
  | invalidAssignmentTarget =>
    "Left side of an assignment must be a variable or an indexed variable"
  | undeclaredProcedure target => "Call to undeclared procedure '" ++ target ++ "'"
  | wrongArity target arity given =>
    "Procedure '" ++ target ++ "' takes " ++ Nat.repr arity ++ " arguments but was called with " ++
      Nat.repr given
  | macroInResolution target =>
    "Macro call '" ++ target ++ "' reached resolution, macros should already be expanded"
  | bindingNeedsValue name => "'with' binding '" ++ name ++ "' needs a value"
  | reservedLabel => "'Done' is reserved and can't be used as a label"
  | duplicateLabel name => "Label '" ++ name ++ "' is declared more than once"
  | unknownGotoTarget target => "goto target '" ++ target ++ "' does not exist"
  | missingLabel =>
    "This statement runs after control has left the current step, so it needs a label"
  | labelRegrouped label old new =>
    "Label " ++ label.text ++ " is already in lock group " ++ old.text ++
      ", can't move it to lock group " ++ new.text
  | labelUngrouped label => "Label " ++ label.text ++ " was never assigned a lock group"
  | outsideLabel statement => "Statement " ++ statement.text ++ " is not inside any label"
  | macroInInference target =>
    "Macro call '" ++ target ++
      "' found during atomicity inference, macros should already be expanded"
  | targetNotVariable expression =>
    "Assignment target " ++ expression.text ++ " is not a variable or an indexed variable"
  | undeclaredLabel name => "Access recorded for undeclared label '" ++ name ++ "'"
  | groupOutOfOrder group => "Lock group " ++ group.text ++ " was numbered out of order"
  | macroInCode target => "Macro call '" ++ target ++ "' reached Go code generation"
  | bindingWithoutValue name =>
    "'with' binding '" ++ name ++ "' reached code generation without a value"
  | blockNotOpen => "Closed a Go block that was never opened"
  | codeLabelRedeclared name =>
    "Go label '" ++ name ++ "' declared more than once in the same function"
  | sectionBeforeLabel name =>
    "Critical section started for label '" ++ name ++ "' before the label was declared"
  | unclosedBlocks count => "Go function finished with " ++ Nat.repr count ++ " unclosed blocks"
  | gotoWithoutLabel name => "goto '" ++ name ++ "' has no matching label"
  | abortOutsideLabel => "Tried to abort a critical section outside of any label"
  | otherRegistry => "Critical section trackers use different lock group registries"
  | otherStrategy => "Critical section trackers use different locking strategies"
  | otherProcess first second =>
    "Critical section trackers belong to different processes (" ++ first.text ++ " and " ++
      second.text ++ ")"
  | otherGroup first second =>
    "Branches disagree on the open lock group (" ++ groupText first ++ " and " ++
      groupText second ++ ")"
  | otherLabel first second =>
    "Branches disagree on the current label (" ++ labelText first ++ " and " ++
      labelText second ++ ")"
  | otherLabelName label first second =>
    "Label " ++ showOption "Uid" (label.map fun uid => Nat.repr uid.number.toNat) ++
      " has two different Go names (" ++ labelText first ++ " and " ++ labelText second ++ ")"
  | unsharedResource name resource =>
    "Global variable '" ++ name ++ "' is a " ++ resourceText resource ++
      ", but coordinated locking can only share integer globals"
  | notFound => "No such file or directory"
  | unknownEntry => "Expected a pgo.toml or a .json algorithm file"
  | unreadableConfig failure => "Could not read config: " ++ failure.text
  | unreadableAlgorithm failure => "Could not read algorithm: " ++ failure.text
  | uncreatedDirectory failure => "Could not create output directory: " ++ failure.text
  | unwrittenFile failure => "Error writing file: " ++ failure.text
  | invalidConfig => "Could not parse pgo.toml"
  | wrongConfig fault => "Could not parse pgo.toml: " ++ fault.text
  | missingInput => "[build] needs an 'input' algorithm file"
  | emptyPackage => "[build] package name can't be empty"
  | noEndpoint => "The coordinated locking strategy needs at least one endpoint"
  | noTimeout => "[locking] timeout must be at least one second"
  | noOutput => "Output file did not have a name or path set"

def kind : Problem → DiagnosticKind
  | malformedAlgorithm _ => .malformed
  | alreadyDeclared _ | unknownIdentifier _ | emptyEither | invalidAssignmentTarget
  | undeclaredProcedure _ | wrongArity .. | bindingNeedsValue _ | reservedLabel
  | duplicateLabel _ | unknownGotoTarget _ | missingLabel | unsharedResource .. => .rule
  | notFound | unknownEntry | unreadableConfig _ | unreadableAlgorithm _ | uncreatedDirectory _
  | unwrittenFile _ => .file
  | invalidConfig | wrongConfig _ | missingInput | emptyPackage | noEndpoint | noTimeout => .config
  | _ => .internal

/-- The stage of the compilation that is named with the problem. -/
def stage? : Problem → Option String
  | malformedAlgorithm _ => some "Loading"
  | duplicateUid _ | registeredTwice .. | unresolvedIdentifier _ | macroInResolution _ =>
    some "Resolution"
  | labelRegrouped .. | outsideLabel _ | macroInInference _ => some "Atomicity Inference"
  | macroInCode _ | codeLabelRedeclared _ | sectionBeforeLabel _ | abortOutsideLabel
  | otherGroup .. | otherLabel .. => some "Go Codegen"
  | _ => none

def suggestion? : Problem → Option String
  | unknownIdentifier _ => some "Declare it as a variable, constant or procedure parameter"
  | unknownGotoTarget _ => some "Check the label name for typos"
  | missingLabel => some "Add a label before this statement"
  | unsharedResource .. => some "Use the local locking strategy for this algorithm"
  | _ => none

def alternative? : Problem → Option String
  | unknownGotoTarget _ => some "Use 'goto Done' to finish the process or procedure"
  | _ => none

end Problem

/-- A problem with its place in the algorithm's text and its file, as far as they are known. -/
structure Diagnostic where
  problem : Problem
  location : TextLocation
  file : Path
deriving DecidableEq

namespace Diagnostic

def of (problem : Problem) : Diagnostic := ⟨problem, TextLocation.unknown, Path.empty⟩

def located (problem : Problem) (location : TextLocation) : Diagnostic :=
  ⟨problem, location, Path.empty⟩

def inFile (diagnostic : Diagnostic) (file : Path) : Diagnostic := { diagnostic with file := file }

/-- A fault of the algorithm's text; its lines are counted from one. -/
def ofFault (fault : Json.Fault) : Diagnostic :=
  let position := ⟨Int32.ofNat (fault.line - 1), Int32.ofNat fault.column⟩
  ⟨.malformedAlgorithm fault, ⟨position, position⟩, Path.empty⟩

end Diagnostic

/-- What succeeds in two steps succeeds in both. -/
theorem ok_of_bind {α β : Type} {first : Except Diagnostic α} {next : α → Except Diagnostic β}
    {result : β} (h : (first >>= next) = .ok result) :
    ∃ value, first = .ok value ∧ next value = .ok result := by
  cases first with
  | error problem => simp [bind, Except.bind] at h
  | ok value => exact ⟨value, rfl, h⟩

/-- Two checks are passed if each of them is. -/
theorem checks_ok {first second : Except Diagnostic Unit} :
    (do first; second) = .ok () ↔ first = .ok () ∧ second = .ok () := by
  cases first with
  | error problem => simp [bind, Except.bind]
  | ok value => simp [bind, Except.bind]

/-- What fails in two steps fails in the first, or in the second after the first. -/
theorem error_of_bind {α β : Type} {first : Except Diagnostic α} {next : α → Except Diagnostic β}
    {problem : Diagnostic} (h : (first >>= next) = .error problem) :
    first = .error problem ∨ ∃ value, first = .ok value ∧ next value = .error problem := by
  cases first with
  | error other =>
    injection h with h
    exact .inl (congrArg Except.error h)
  | ok value => exact .inr ⟨value, rfl, h⟩

end PlusCalGo
