import PlusCalGo.Algorithm.Uids
import PlusCalGo.Resolution.Labels
import PlusCalGo.Resolution.Scope

/-!
# Resolution

Links every identifier of an algorithm to its declaration. Constants and globals are visible from
their declaration on everywhere, locals, parameters and `self` in their process or procedure, and
the bindings of a `with` in its body and in the bindings after them.
-/

namespace PlusCalGo

namespace Expression

mutual

/-- Adds a reference for each identifier of the expression. -/
def resolve (scopes : Scopes) (location : TextLocation) :
    Expression → Definitions → Except Diagnostic Definitions
  | identifier uid name, definitions =>
    match scopes.lookup name with
    | some declaration => .ok (definitions.addReference uid declaration)
    | none => .error (.located (.unknownIdentifier name) location)
  | number .., definitions | bool .., definitions | string .., definitions => .ok definitions
  | index _ function params, definitions => do
    listResolve scopes location params (← function.resolve scopes location definitions)
  | binary _ _ lhs rhs, definitions => do
    rhs.resolve scopes location (← lhs.resolve scopes location definitions)
  | unary _ _ operand, definitions => operand.resolve scopes location definitions
  | tuple _ elements, definitions => listResolve scopes location elements definitions
  | ifElse _ condition yes no, definitions => do
    let definitions ← condition.resolve scopes location definitions
    no.resolve scopes location (← yes.resolve scopes location definitions)
  | apply _ _ args, definitions => listResolve scopes location args definitions

def listResolve (scopes : Scopes) (location : TextLocation) :
    List Expression → Definitions → Except Diagnostic Definitions
  | [], definitions => .ok definitions
  | expression :: rest, definitions => do
    listResolve scopes location rest (← expression.resolve scopes location definitions)

end

end Expression

/-! ## Declarations -/

/-- The scopes and definitions after some declarations. -/
structure Resolved where
  scopes : Scopes
  definitions : Definitions

namespace Resolved

def declare (state : Resolved) (definition : Definition) : Except Diagnostic Resolved := do
  let (scopes, definitions) ← state.scopes.declare state.definitions definition
  pure ⟨scopes, definitions⟩

def resolve (state : Resolved) (value : Expression) (location : TextLocation) :
    Except Diagnostic Resolved := do
  pure { state with definitions := ← value.resolve state.scopes location state.definitions }

/-- Declares a variable, whose initial value does not see it yet. -/
def declareVariable (state : Resolved) (kind : ResourceKind → DefinitionKind)
    (decl : VariableDecl) : Except Diagnostic Resolved := do
  let state ← match decl.value with
    | some value => state.resolve value decl.location
    | none => pure state
  state.declare ⟨decl.uid, decl.name, kind decl.resource, decl.location⟩

def declareVariables (state : Resolved) (kind : ResourceKind → DefinitionKind) :
    List VariableDecl → Except Diagnostic Resolved
  | [] => .ok state
  | decl :: rest => do (← state.declareVariable kind decl).declareVariables kind rest

/-- Declares the bindings of a `with`, each of which must have a value. -/
def declareBindings (state : Resolved) : List VariableDecl → Except Diagnostic Resolved
  | [] => .ok state
  | decl :: rest => do
    if decl.value.isNone then
      throw (.located (.bindingNeedsValue decl.name) decl.location)
    (← state.declareVariable (fun _ => .bound) decl).declareBindings rest

def declareConstants (state : Resolved) : List ConstantDecl → Except Diagnostic Resolved
  | [] => .ok state
  | decl :: rest => do
    let state ← match decl.value with
      | some value => state.resolve value TextLocation.unknown
      | none => pure state
    (← state.declare ⟨decl.uid, decl.name, .constant, TextLocation.unknown⟩).declareConstants rest

end Resolved

/-! ## Statements -/

/-- The number of parameters of each procedure; of two procedures with one name the later counts. -/
abbrev Arities := List (String × Nat)

def Arities.find? (arities : Arities) (name : String) : Option Nat :=
  (arities.reverse.find? (·.1 = name)).map (·.2)

def AssignmentPair.resolveList (scopes : Scopes) (location : TextLocation) :
    List AssignmentPair → Definitions → Except Diagnostic Definitions
  | [], definitions => .ok definitions
  | pair :: rest, definitions => do
    if pair.lhs.assignmentRoot?.isNone then throw (.located .invalidAssignmentTarget location)
    let definitions ← pair.lhs.resolve scopes location definitions
    resolveList scopes location rest (← pair.rhs.resolve scopes location definitions)

namespace Statement

mutual

def resolve (arities : Arities) (scopes : Scopes) :
    Statement → Definitions → Except Diagnostic Definitions
  | labeled _ _ body, definitions => listResolve arities scopes body definitions
  | whileDo mark condition body, definitions => do
    listResolve arities scopes body (← condition.resolve scopes mark.location definitions)
  | ifElse mark condition yes no, definitions => do
    let definitions ← condition.resolve scopes mark.location definitions
    listResolve arities scopes no (← listResolve arities scopes yes definitions)
  | either mark cases, definitions =>
    if cases.isEmpty then .error (.located .emptyEither mark.location)
    else casesResolve arities scopes cases definitions
  | assign mark pairs, definitions =>
    AssignmentPair.resolveList scopes mark.location pairs definitions
  | call mark target arguments, definitions =>
    match arities.find? target with
    | none => .error (.located (.undeclaredProcedure target) mark.location)
    | some arity =>
      if arity ≠ arguments.length then
        .error (.located (.wrongArity target arity arguments.length) mark.location)
      else Expression.listResolve scopes mark.location arguments definitions
  | macroCall _ target _, _ => .error (.of (.macroInResolution target))
  | withDo _ bindings body, definitions => do
    let inside ← Resolved.declareBindings ⟨scopes.enter, definitions⟩ bindings
    listResolve arities inside.scopes body inside.definitions
  | print mark value, definitions | assert mark value, definitions
  | await mark value, definitions =>
    value.resolve scopes mark.location definitions
  | leave _, definitions | skip _, definitions | goto .., definitions => .ok definitions

def listResolve (arities : Arities) (scopes : Scopes) :
    List Statement → Definitions → Except Diagnostic Definitions
  | [], definitions => .ok definitions
  | statement :: rest, definitions => do
    listResolve arities scopes rest (← statement.resolve arities scopes definitions)

def casesResolve (arities : Arities) (scopes : Scopes) :
    List (List Statement) → Definitions → Except Diagnostic Definitions
  | [], definitions => .ok definitions
  | statements :: rest, definitions => do
    casesResolve arities scopes rest (← listResolve arities scopes statements definitions)

end

end Statement

/-! ## Bodies and algorithms -/

/-- Resolves a body under the declarations made for it. -/
def resolveBody (arities : Arities) (state : Resolved) (body : List Statement) :
    Except Diagnostic Definitions := do
  Statement.checkLabels body
  Statement.listResolve arities state.scopes body state.definitions

def Procedure.resolve (arities : Arities) (scopes : Scopes) (procedure : Procedure)
    (definitions : Definitions) : Except Diagnostic Definitions := do
  let state ← Resolved.declareVariables ⟨scopes.enter, definitions⟩ .parameter procedure.params
  let state ← state.declareVariables .localVariable procedure.locals
  resolveBody arities state procedure.body

/-- The value of `self` is found outside of the process. -/
def ProcessSelf.resolve (scopes : Scopes) :
    ProcessSelf → Definitions → Except Diagnostic Definitions
  | single value, definitions => value.resolve scopes TextLocation.unknown definitions
  | range low high, definitions => do
    high.resolve scopes TextLocation.unknown
      (← low.resolve scopes TextLocation.unknown definitions)

def Process.resolve (arities : Arities) (scopes : Scopes) (process : Process)
    (definitions : Definitions) : Except Diagnostic Definitions := do
  let definitions ← process.selfValue.resolve scopes definitions
  let state ← Resolved.declare ⟨scopes.enter, definitions⟩
    ⟨process.selfDecl, "self", .processSelf, TextLocation.unknown⟩
  let state ← state.declareVariables .localVariable process.locals
  resolveBody arities state process.body

def Procedure.resolveList (arities : Arities) (scopes : Scopes) :
    List Procedure → Definitions → Except Diagnostic Definitions
  | [], definitions => .ok definitions
  | procedure :: rest, definitions => do
    resolveList arities scopes rest (← procedure.resolve arities scopes definitions)

def Process.resolveList (arities : Arities) (scopes : Scopes) :
    List Process → Definitions → Except Diagnostic Definitions
  | [], definitions => .ok definitions
  | process :: rest, definitions => do
    resolveList arities scopes rest (← process.resolve arities scopes definitions)

namespace Algorithm

def arities (algorithm : Algorithm) : Arities :=
  algorithm.procedures.map fun procedure => (procedure.name, procedure.params.length)

/-- No two nodes share a uid. -/
def checkUids (algorithm : Algorithm) : Except Diagnostic Unit :=
  match Uid.firstRepeated? [] algorithm.uids with
  | some uid => .error (.of (.duplicateUid uid))
  | none => .ok ()

/-- The definitions and references of an algorithm, or the first rule it breaks. -/
def resolve (algorithm : Algorithm) : Except Diagnostic Definitions := do
  algorithm.checkUids
  let state ← Resolved.declareConstants ⟨Scopes.empty, Definitions.empty⟩ algorithm.constants
  let state ← state.declareVariables .global algorithm.globals
  let definitions ← Procedure.resolveList algorithm.arities state.scopes algorithm.procedures
    state.definitions
  Process.resolveList algorithm.arities state.scopes algorithm.processes definitions

end Algorithm

end PlusCalGo
