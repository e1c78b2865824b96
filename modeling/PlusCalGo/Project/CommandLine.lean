import PlusCalGo.Project.Console
import PlusCalGo.Text.Duration

/-!
# Command line

The commands `build`, `check` and `help`, and what each of them does on a host.
-/

namespace PlusCalGo

inductive Command where
  | build (entry : String) (overrides : Config.Overrides)
  | check (entry : String) (json : Bool)
  | help
deriving DecidableEq

/-- Why some arguments are no command. -/
inductive UsageError where
  | unknownCommand (name : String)
  | noCommand
  | missingOutput
  | unknownBuildFlag (flag : String)
  | unknownCheckFlag (flag : String)
  | severalBuildPaths
  | severalCheckPaths
deriving DecidableEq

def UsageError.message : UsageError → String
  | unknownCommand name => "Invalid command: '" ++ name ++ "'"
  | noCommand => "No command given"
  | missingOutput => "Missing value for --out"
  | unknownBuildFlag flag =>
    "Unknown build flag: '" ++ flag ++ "'. Supported build flags are --coordinated, --out."
  | unknownCheckFlag flag =>
    "Unknown check flag: '" ++ flag ++ "'. The only check flag is --json."
  | severalBuildPaths => "Build command accepts at most one path argument."
  | severalCheckPaths => "Check command accepts at most one path argument."

namespace Command

def hideWarnings : String := "--hide-warnings"

def hideTimers : String := "--hide-timers"

def isFlag (argument : String) : Bool := argument.toList.take 2 = ['-', '-']

/-- The rest of a build command; an empty path counts as none. -/
def parseBuild (entry : String) (overrides : Config.Overrides) :
    List String → Except UsageError Command
  | [] => .ok (.build entry overrides)
  | argument :: rest =>
    if argument = "--coordinated" then parseBuild entry { overrides with coordinated := true } rest
    else if argument = "--out" then
      match rest with
      | [] => .error .missingOutput
      | output :: rest =>
        if isFlag output then .error .missingOutput
        else parseBuild entry { overrides with output := some ⟨output⟩ } rest
    else if argument = hideWarnings ∨ argument = hideTimers then parseBuild entry overrides rest
    else if isFlag argument then .error (.unknownBuildFlag argument)
    else if entry.isEmpty then parseBuild argument overrides rest
    else .error .severalBuildPaths

def parseCheck (entry : String) (json : Bool) : List String → Except UsageError Command
  | [] => .ok (.check entry json)
  | argument :: rest =>
    if argument = "--json" then parseCheck entry true rest
    else if argument = hideWarnings ∨ argument = hideTimers then parseCheck entry json rest
    else if isFlag argument then .error (.unknownCheckFlag argument)
    else if entry.isEmpty then parseCheck argument json rest
    else .error .severalCheckPaths

/-- The command that arguments give. -/
def parse : List String → Except UsageError Command
  | [] => .error .noCommand
  | name :: rest =>
    if name = "help" ∨ name = "--help" then .ok .help
    else if name = "build" then parseBuild "" ⟨false, none⟩ rest
    else if name = "check" then parseCheck "" false rest
    else .error (.unknownCommand name)

def hidden (arguments : List String) : Hidden :=
  ⟨arguments.contains hideWarnings, arguments.contains hideTimers⟩

end Command

/-! ## Help -/

def helpTitle : List String :=
  ["------------------------------------", "pgo - compiles PlusCal algorithms to Go",
    "Usage: <command> <args>"]

def helpCommands : List String :=
  ["", "Commands:",
    "  build <path>      - Compiles a pgo.toml project or a .json algorithm to Go",
    "  check <path>      - Infers lock groups and prints them without writing Go",
    "  help              - Shows this message",
    "", "Flags:", "  --hide-warnings", "  --hide-timers",
    "", "Build command options:",
    "  --coordinated     (lock through the distributed state service)",
    "  --out <path>      (overrides the output file from pgo.toml)",
    "", "Check command options:",
    "  --json            (prints the lock groups as JSON)"]

namespace Command

open Host

variable {m : Type → Type} [Monad m] [Host m]

/-- Compiles a project under its final configuration and writes the program. -/
def buildProject (config : Config) (hidden : Hidden) (started : Nat) : m Messages := do
  printLines ["", "Compiling " ++ config.input.text]
  match ← config.compile hidden with
  | .error error => pure (.ofError error)
  | .ok compiled =>
    match ← Config.writeProgram config.output compiled.program.render with
    | .error error => pure ⟨[error], compiled.warnings⟩
    | .ok () => do
      if !hidden.timers then
        let elapsed := (← clock) - started
        printLines ["", "Built " ++ config.output.text ++ " with " ++
          Nat.repr compiled.report.groups.length ++ " lock groups in: " ++ Text.duration elapsed]
      pure ⟨[], compiled.warnings⟩

/-- Builds what an entry names. -/
def buildEntry (entry : String) (overrides : Config.Overrides) (hidden : Hidden) : m Messages := do
  let started ← clock
  match ← Config.ofEntry entry with
  | .error error => pure (.ofError error)
  | .ok config => buildProject (config.override overrides) hidden started

/-- Shows the lock groups of what an entry names. -/
def checkEntry (entry : String) (json : Bool) (hidden : Hidden) : m Messages := do
  match ← Config.ofEntry entry with
  | .error error => pure (.ofError error)
  | .ok config =>
    match ← config.compile hidden with
    | .error error => pure (.ofError error)
    | .ok compiled => do
      if json then printLine compiled.report.toJson.indented
      else printLines compiled.report.lines
      pure ⟨[], compiled.warnings⟩

def run (hidden : Hidden) : Command → m Unit
  | .help => printLines (helpTitle ++ helpCommands)
  | .build entry overrides => do printMessages (← buildEntry entry overrides hidden)
  | .check entry json => do printMessages (← checkEntry entry json hidden)

/-- Does what the arguments say. Without any there is only help. -/
def runArguments (arguments : List String) : m Unit := do
  if arguments.isEmpty then printLines (helpTitle ++ helpCommands)
  else match parse arguments with
    | .error error => printLines (error.message :: helpCommands)
    | .ok command => run (hidden arguments) command

end Command

end PlusCalGo
