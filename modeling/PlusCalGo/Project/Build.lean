import PlusCalGo.Algorithm.Reader
import PlusCalGo.Locking.Atomicity
import PlusCalGo.Project.Config
import PlusCalGo.Project.Host
import PlusCalGo.Resolution.Basic

/-!
# Building projects

From a path on the command line to a written program: finding the configuration, compiling the
algorithm it names, and writing the result.
-/

namespace PlusCalGo

/-- What a compilation makes before anything is written. -/
structure Compiled where
  program : Go.Program
  report : AtomicityReport
  warnings : List Warning

/-- Everything there is to tell at the end. -/
structure Messages where
  errors : List Diagnostic
  warnings : List Warning

def Messages.ofError (error : Diagnostic) : Messages := ⟨[error], []⟩

/-- What the user does not want to see. -/
structure Hidden where
  warnings : Bool
  timers : Bool
deriving DecidableEq

namespace Config

/-- Compiles the text of an algorithm. -/
def compileText (config : Config) (text : String) : Except Diagnostic Compiled := do
  let algorithm ← (Algorithm.parse text).mapError Diagnostic.ofFault
  let definitions ← algorithm.resolve
  let atomicity ← algorithm.inferAtomicity definitions
  let program ← algorithm.toGo definitions atomicity.groups config.settings
  pure ⟨program, atomicity.report, atomicity.warnings⟩

/-- Compiles a text that was read from the input file: whatever is said of it names the file. -/
def compileInput (config : Config) (hidden : Hidden) (text : String) :
    Except Diagnostic Compiled := do
  let compiled ← (config.compileText text).mapError fun error => error.inFile config.input
  let warnings := compiled.warnings.map fun warning => { warning with file := config.input }
  pure { compiled with warnings := if hidden.warnings then [] else warnings }

variable {m : Type → Type} [Monad m] [Host m]

/-- Reads a configuration file. -/
def load (path : Path) : m (Except Diagnostic Config) := do
  match ← Host.readFile path with
  | .error failure => pure (.error ((Diagnostic.of (.unreadableConfig failure)).inFile path))
  | .ok text => pure ((ofToml text path.parent).mapError fun error => error.inFile path)

/-- The configuration for a path: that of a configuration file or of the one in a directory, or the
defaults for an algorithm. Without a path the working directory's file counts. -/
def ofEntry (entry : String) : m (Except Diagnostic Config) := do
  let path : Path := ⟨if entry.isEmpty then configFileName else entry⟩
  if ← Host.isDirectory path then load (path.join ⟨configFileName⟩)
  else if !(← Host.isPresent path) then
    pure (.error ((Diagnostic.of .notFound).inFile path))
  else if path.extension? = some ['t', 'o', 'm', 'l'] then load path
  else if path.extension? = some ['j', 's', 'o', 'n'] then pure (.ok (forAlgorithm path))
  else pure (.error ((Diagnostic.of .unknownEntry).inFile path))

/-- Reads and compiles the algorithm of a configuration. -/
def compile (config : Config) (hidden : Hidden) : m (Except Diagnostic Compiled) := do
  match ← Host.readFile config.input with
  | .error failure =>
    pure (.error ((Diagnostic.of (.unreadableAlgorithm failure)).inFile config.input))
  | .ok text => pure (config.compileInput hidden text)

/-- Writes a program, and makes the directories it goes to. -/
def writeProgram (output : Path) (text : String) : m (Except Diagnostic Unit) := do
  if output.text.isEmpty then pure (.error (.of .noOutput))
  else do
    let write : m (Except Diagnostic Unit) := do
      match ← Host.writeFile output text with
      | .ok () => pure (.ok ())
      | .error failure => pure (.error ((Diagnostic.of (.unwrittenFile failure)).inFile output))
    match output.parent? with
    | none => write
    | some parent =>
      if parent.text.isEmpty then write
      else match ← Host.createDirectories parent with
        | .ok () => write
        | .error failure =>
          pure (.error ((Diagnostic.of (.uncreatedDirectory failure)).inFile parent))

end Config

end PlusCalGo
