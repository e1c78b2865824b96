import PlusCalGo.Diagnostic

/-!
# Hosts

What the compiler needs of the machine it runs on.
-/

namespace PlusCalGo

class Host (m : Type → Type) where
  isDirectory : Path → m Bool
  isPresent : Path → m Bool
  readFile : Path → m (Except FileFailure String)
  /-- Makes one directory, whose parent has to be there. -/
  createDirectory : Path → m (Except FileFailure Unit)
  /-- Writes a file in place of the one that may be there. -/
  writeFile : Path → String → m (Except FileFailure Unit)
  workingDirectory : m (Except FileFailure Path)
  print : String → m Unit
  /-- Nanoseconds since some moment. -/
  clock : m Nat

namespace Host

variable {m : Type → Type} [Monad m] [Host m]

/-- Makes the first directory of the list that can be made, and returns those in front of it, the
last one first. A directory that is there ends the search too. -/
def createFirst : List Path → List Path → m (Except FileFailure (List Path))
  | missing, [] => pure (.ok missing)
  | missing, directory :: rest => do
    if directory.text.isEmpty then pure (.ok missing)
    else match ← createDirectory directory with
      | .ok () => pure (.ok missing)
      | .error .notFound => createFirst (directory :: missing) rest
      | .error failure => do
        if ← isDirectory directory then pure (.ok missing) else pure (.error failure)

/-- Makes directories one after the other; they may be there already. -/
def createEach : List Path → m (Except FileFailure Unit)
  | [] => pure (.ok ())
  | directory :: rest => do
    match ← createDirectory directory with
    | .ok () => createEach rest
    | .error failure => do
      if ← isDirectory directory then createEach rest else pure (.error failure)

/-- Makes a directory with all directories it is in. -/
def createDirectories (directory : Path) : m (Except FileFailure Unit) := do
  match ← createFirst [] directory.ancestors with
  | .error failure => pure (.error failure)
  | .ok missing => createEach missing

end Host

end PlusCalGo
