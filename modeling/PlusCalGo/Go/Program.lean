import PlusCalGo.Go.Body

/-!
# Go programs

A whole generated file: package and imports, constants and globals, the declaration of the locks,
a function for each procedure and process, and `main`, which starts every process and waits.
-/

namespace PlusCalGo

namespace Go

/-- What the author of a project chooses about the generated program. Endpoints and timeout are of
the state service. -/
structure Settings where
  package : String
  locking : LockingMode
  endpoints : List String
  timeout : UInt64
deriving DecidableEq

def Settings.default : Settings := ⟨"main", .inProcess, ["127.0.0.1:2379"], 3⟩

inductive Declaration where
  | initialized (name value : String)
  | zero (name type : String)
  /-- A constant that whoever uses the program has to give a value. -/
  | unset (name : String)
deriving DecidableEq

/-- A function of a procedure or process. Each one also takes `self`, ahead of `params`. -/
structure Function where
  name : String
  params : List (String × String)
  body : FunctionBody SectionCall

/-- The call that connects to the state service, and the globals it starts with. -/
structure ServiceSetup where
  endpoints : List String
  timeout : UInt64
  globals : List (String × String)
deriving DecidableEq

/-- How `main` starts a process: once, or once for each number from `low` to `high`. -/
inductive Launch where
  | single (process value : String)
  | range (process low high : String)
deriving DecidableEq

/-- Where the locks of a program are: in as many mutexes, or in the state service. -/
inductive LockHome where
  | mutexes (count : Nat)
  | service (setup : ServiceSetup)
deriving DecidableEq

structure Program where
  title : String
  package : String
  imports : Imports
  declarations : List Declaration
  locks : LockHome
  functions : List Function
  launches : List Launch

/-! ## Programs of algorithms -/

/-- The declaration of a variable with its initial value, if it has one. -/
def declarationOf (definitions : Definitions) (decl : VariableDecl) :
    Except Diagnostic Declaration := do
  match decl.value with
  | some value => pure (.initialized decl.name (← value.toGo definitions))
  | none => pure (.zero decl.name decl.resource.goType)

def constantOf (definitions : Definitions) (decl : ConstantDecl) :
    Except Diagnostic Declaration := do
  match decl.value with
  | some value => pure (.initialized decl.name (← value.toGo definitions))
  | none => pure (.unset decl.name)

/-- The declaration alone on its line. -/
def Declaration.render : Declaration → String
  | initialized name value => "var " ++ name ++ " = " ++ value
  | zero name type => "var " ++ name ++ " " ++ type
  | unset name => "var " ++ name ++ " int // must be set before main runs"

/-- Declares a variable of a function. Go refuses those that are not used. -/
def Lower.declare (name : String) (declaration : Declaration) : Lower Unit := do
  addLine declaration.render
  addLine ("_ = " ++ name)

def Lower.declareAll (definitions : Definitions) : List VariableDecl → Lower Unit
  | [] => pure ()
  | decl :: rest => do
    declare decl.name (← Emit.liftExcept (declarationOf definitions decl))
    declareAll definitions rest

/-- Declares the copies of the globals a function works on. Opening a section fills them in. -/
def Lower.declareCopies : List VariableDecl → Lower Unit
  | [] => pure ()
  | decl :: rest => do
    declare decl.name (.zero decl.name decl.resource.goType)
    declareCopies rest

/-- Lowers declarations and statements of a function. Its end closes the last step. -/
def lowerFunction (definitions : Definitions) (copies locals : List VariableDecl)
    (body : List Statement) : Lower Unit := do
  Lower.declareCopies copies
  Lower.declareAll definitions locals
  lowerBody definitions body
  Lower.emit Emit.close

/-- What the functions of one program have in common. -/
structure FunctionContext where
  definitions : Definitions
  groups : LockGroups
  strategy : Strategy
  copies : List VariableDecl

/-- Makes the body of a function. The imports it needs are added to those needed before. -/
def FunctionContext.body (context : FunctionContext) (imports : Imports) (owner : Uid)
    (locals : List VariableDecl) (body : List Statement) :
    Except Diagnostic (FunctionBody SectionCall × Imports) :=
  let tracker := Tracker.new ⟨0, context.groups⟩ ⟨0, context.strategy⟩ owner
  match lowerFunction context.definitions context.copies locals body
      ⟨⟨tracker, Builder.empty⟩, 0, imports⟩ with
  | .error problem _ => .error problem
  | .ok _ state => do
    let finished ← state.emission.builder.finish
    pure (finished, state.imports)

def FunctionContext.procedures (context : FunctionContext) (imports : Imports) :
    List Procedure → Except Diagnostic (List Function × Imports)
  | [] => .ok ([], imports)
  | procedure :: rest => do
    let params := procedure.params.map fun param => (param.name, param.resource.goType)
    let (body, imports) ← context.body imports procedure.uid procedure.locals procedure.body
    let (functions, imports) ← context.procedures imports rest
    pure (⟨procedure.name, params, body⟩ :: functions, imports)

def FunctionContext.processes (context : FunctionContext) (imports : Imports) :
    List Process → Except Diagnostic (List Function × Imports)
  | [] => .ok ([], imports)
  | process :: rest => do
    let (body, imports) ← context.body imports process.uid process.locals process.body
    let (functions, imports) ← context.processes imports rest
    pure (⟨process.name, [], body⟩ :: functions, imports)

/-- The value a global has in the state service when the program starts. -/
def initialValue (definitions : Definitions) (decl : VariableDecl) :
    Except Diagnostic (String × String) := do
  match decl.value with
  | some value => pure (decl.name, ← value.toGo definitions)
  | none => pure (decl.name, "0")

def launchOf (definitions : Definitions) (process : Process) : Except Diagnostic Launch := do
  match process.selfValue with
  | .single value => pure (.single process.name (← value.toGo definitions))
  | .range low high =>
    let low ← low.toGo definitions
    let high ← high.toGo definitions
    pure (.range process.name low high)

end Go

namespace Algorithm

open Go

/-- The globals the functions keep copies of. -/
def copiedGlobals (algorithm : Algorithm) : LockingMode → List VariableDecl
  | .inProcess => []
  | .coordinated => algorithm.globals

/-- The globals the file declares. -/
def packageGlobals (algorithm : Algorithm) : LockingMode → List VariableDecl
  | .inProcess => algorithm.globals
  | .coordinated => []

def lockHome (algorithm : Algorithm) (definitions : Definitions) (groups : LockGroups)
    (settings : Settings) : Except Diagnostic LockHome := do
  match settings.locking with
  | .inProcess => pure (.mutexes groups.count)
  | .coordinated =>
    let globals ← algorithm.globals.mapM (initialValue definitions)
    pure (.service ⟨settings.endpoints, settings.timeout, globals⟩)

/-- The program of a resolved algorithm under its lock groups. -/
def toGo (algorithm : Algorithm) (definitions : Definitions) (groups : LockGroups)
    (settings : Settings) : Except Diagnostic Program := do
  let strategy ← Strategy.ofMode settings.locking groups definitions
  let context : FunctionContext :=
    ⟨definitions, groups, strategy, algorithm.copiedGlobals settings.locking⟩
  let (procedures, imports) ← context.procedures Imports.none algorithm.procedures
  let (processes, imports) ← context.processes imports algorithm.processes
  let constants ← algorithm.constants.mapM (constantOf definitions)
  let globals ← (algorithm.packageGlobals settings.locking).mapM (declarationOf definitions)
  let locks ← algorithm.lockHome definitions groups settings
  let launches ← algorithm.processes.mapM (launchOf definitions)
  pure ⟨algorithm.name, settings.package, imports, constants ++ globals, locks,
    procedures ++ processes, launches⟩

end Algorithm

namespace Go

/-! ## Rendering -/

def unlines (lines : List String) : String := String.join (lines.map (· ++ "\n"))

/-- The packages a program uses, in the order in which Go's formatter puts them. -/
def Program.packages (program : Program) : List String :=
  (if program.imports.fmt then ["fmt"] else []) ++
    (if program.imports.rand then ["math/rand"] else []) ++ ["sync"] ++
    match program.locks with
    | .mutexes _ => []
    | .service _ => ["pgonet"]

def Program.header (program : Program) : List String :=
  ["// Code generated by pgo from algorithm " ++ program.title ++ ". DO NOT EDIT.", "",
    "package " ++ program.package, "", "import ("] ++
    program.packages.map (fun name => "\t\"" ++ name ++ "\"") ++ [")", ""]

def Program.declarationLines (program : Program) : List String :=
  if program.declarations.isEmpty then []
  else program.declarations.map Declaration.render ++ [""]

/-- The declaration of the locks. Without lock groups there is none. -/
def LockHome.declarationLines : LockHome → List String
  | mutexes count =>
    if count = 0 then []
    else ["var " ++ lockArray ++ " [" ++ Nat.repr count ++ "]sync.Mutex", ""]
  | service _ => ["var " ++ globalState ++ " *pgonet.GlobalState", ""]

def Function.render (function : Function) : String :=
  let params := ("self", "int") :: function.params
  let params := ", ".intercalate (params.map fun (name, type) => name ++ " " ++ type)
  "func " ++ function.name ++ "(" ++ params ++ ") \x7b\n" ++
    (function.body.expand SectionCall.code).render 1 ++ "\x7d\n\n"

def ServiceSetup.lines (setup : ServiceSetup) : List String :=
  ["\tcfg := &pgonet.GlobalsConfig\x7b",
    "\t\tEndpoints: []string\x7b" ++ ", ".intercalate (setup.endpoints.map Text.quoted) ++ "\x7d,",
    "\t\tTimeout:   " ++ Nat.repr setup.timeout.toNat ++ ",",
    "\t\x7d",
    "\tvar err error",
    "\t" ++ globalState ++ ", err = pgonet.InitGlobals(cfg)",
    "\tif err != nil \x7b", "\t\tpanic(err)", "\t\x7d"] ++
    setup.globals.flatMap (fun (name, value) =>
      ["\tif err := " ++ globalState ++ ".Set(" ++ Text.quoted name ++ ", " ++ value ++
          "); err != nil \x7b",
        "\t\tpanic(err)", "\t\x7d"]) ++ [""]

def LockHome.setupLines : LockHome → List String
  | mutexes _ => []
  | service setup => setup.lines

def Launch.lines : Launch → List String
  | single process value =>
    ["\twg.Add(1)", "\tgo func() \x7b", "\t\tdefer wg.Done()",
      "\t\t" ++ process ++ "(" ++ value ++ ")", "\t\x7d()"]
  | range process low high =>
    ["\tfor i := " ++ low ++ "; i <= " ++ high ++ "; i++ \x7b",
      "\t\twg.Add(1)", "\t\tgo func(self int) \x7b", "\t\t\tdefer wg.Done()",
      "\t\t\t" ++ process ++ "(self)", "\t\t\x7d(i)", "\t\x7d"]

def Program.mainLines (program : Program) : List String :=
  ["func main() \x7b"] ++ program.locks.setupLines ++ ["\tvar wg sync.WaitGroup"] ++
    program.launches.flatMap Launch.lines ++ ["\twg.Wait()", "\x7d"]

/-- The text of the file. -/
def Program.render (program : Program) : String :=
  unlines (program.header ++ program.declarationLines ++ program.locks.declarationLines) ++
    String.join (program.functions.map Function.render) ++ unlines program.mainLines

end Go

end PlusCalGo
