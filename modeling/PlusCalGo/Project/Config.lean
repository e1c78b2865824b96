import PlusCalGo.Diagnostic
import PlusCalGo.Go.Program
import PlusCalGo.Toml.Decoder
import PlusCalGo.Toml.Reader

/-!
# Configurations

What a project compiles, where the program goes, and the settings of the program: read from a
configuration file, or the defaults for an algorithm without one.
-/

namespace PlusCalGo

/-- The name of the configuration file in a project's directory. -/
def configFileName : String := "pgo.toml"

def goExtension : String := "go"

/-- Paths of a configuration file are counted from `entryDir`, the directory it is in. -/
structure Config where
  entryDir : Path
  input : Path
  output : Path
  settings : Go.Settings
deriving DecidableEq

namespace Config

/-! ## Configuration files -/

structure BuildSection where
  input : Option Path
  output : Option Path
  package : String
deriving DecidableEq

structure LockingSection where
  strategy : Go.LockingMode
  endpoints : List String
  timeout : UInt64
deriving DecidableEq

structure Sections where
  build : BuildSection
  locking : LockingSection
deriving DecidableEq

def BuildSection.default : BuildSection := ⟨none, none, Go.Settings.default.package⟩

def LockingSection.default : LockingSection :=
  let settings := Go.Settings.default
  ⟨settings.locking, settings.endpoints, settings.timeout⟩

def path : Toml.Decoder Path := fun value => do pure ⟨← Toml.Decoder.text "path string" value⟩

def strategy : Toml.Decoder Go.LockingMode :=
  Toml.Decoder.choice [("local", .inProcess), ("coordinated", .coordinated)]

open Toml.Decoder in
def BuildSection.decode : Toml.Decoder BuildSection :=
  record "struct BuildSection" [
    Field.of "input" path fun input build => { build with input := some input },
    Field.of "output" path fun output build => { build with output := some output },
    Field.of "package" (text "a string") fun package build => { build with package := package }]
    BuildSection.default

open Toml.Decoder in
def LockingSection.decode : Toml.Decoder LockingSection :=
  record "struct LockingConfig" [
    Field.of "strategy" Config.strategy fun strategy locking =>
      { locking with strategy := strategy },
    Field.of "endpoints" (list (text "a string")) fun endpoints locking =>
      { locking with endpoints := endpoints },
    Field.of "timeout" unsigned fun timeout locking => { locking with timeout := timeout }]
    LockingSection.default

open Toml.Decoder in
def Sections.decode (members : Toml.Members) : Except Toml.Mismatch Sections :=
  table [
    Field.of "build" BuildSection.decode fun build sections => { sections with build := build },
    Field.of "locking" LockingSection.decode fun locking sections =>
      { sections with locking := locking }]
    ⟨BuildSection.default, LockingSection.default⟩ members

/-- The sections of a configuration file. -/
def Sections.ofToml (text : String) : Except Diagnostic Sections :=
  match Toml.parse text with
  | none => .error (.of .invalidConfig)
  | some members =>
    match Sections.decode members with
    | .ok sections => .ok sections
    | .error mismatch => .error (.of (.wrongConfig (Toml.Fault.ofMismatch text mismatch)))

/-- The state service needs an endpoint and a timeout. -/
def LockingSection.check (locking : LockingSection) : Except Diagnostic Unit :=
  match locking.strategy with
  | .inProcess => .ok ()
  | .coordinated =>
    if locking.endpoints.isEmpty then .error (.of .noEndpoint)
    else if locking.timeout = 0 then .error (.of .noTimeout)
    else .ok ()

/-- The configuration a file in `entryDir` holds. -/
def ofToml (text : String) (entryDir : Path) : Except Diagnostic Config := do
  let sections ← Sections.ofToml text
  match sections.build.input with
  | none => throw (.of .missingInput)
  | some input => do
    let input := entryDir.join input
    let output := match sections.build.output with
      | some output => entryDir.join output
      | none => input.withExtension goExtension
    if sections.build.package.isEmpty then throw (.of .emptyPackage)
    sections.locking.check
    let locking := sections.locking
    pure ⟨entryDir, input, output,
      ⟨sections.build.package, locking.strategy, locking.endpoints, locking.timeout⟩⟩

/-- The configuration of an algorithm that has no project. -/
def forAlgorithm (input : Path) : Config :=
  ⟨input.parent, input, input.withExtension goExtension, Go.Settings.default⟩

/-! ## Overrides -/

/-- Choices of the command line, which count more than the file's. -/
structure Overrides where
  coordinated : Bool
  output : Option Path
deriving DecidableEq

def override (config : Config) (overrides : Overrides) : Config :=
  { config with
    output := overrides.output.getD config.output
    settings := { config.settings with
      locking := if overrides.coordinated then .coordinated else config.settings.locking } }

end Config

end PlusCalGo
