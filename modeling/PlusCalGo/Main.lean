import PlusCalGo.Project.CommandLine

/-!
# The compiler as a program

The machine the program runs on as a host, and the entry point.
-/

namespace PlusCalGo

/-- A failure with a number and the system's words for it. -/
def FileFailure.ofCode (code : Nat) (details : String) : FileFailure :=
  if code = 2 then .notFound
  else if code = 17 then .alreadyExists
  else if code = 20 then .notDirectory
  else if code = 21 then .isDirectory
  else if code = 36 then .nameTooLong
  else .system details code

def FileFailure.ofError : IO.Error → FileFailure
  | .alreadyExists _ code details | .noFileOrDirectory _ code details
  | .inappropriateType _ code details | .invalidArgument _ code details
  | .permissionDenied _ code details | .resourceExhausted _ code details
  | .noSuchThing _ code details | .interrupted _ code details
  | .otherError code details | .resourceBusy code details | .resourceVanished code details
  | .unsupportedOperation code details | .hardwareFault code details
  | .unsatisfiedConstraints code details | .illegalOperation code details
  | .protocolError code details | .timeExpired code details => ofCode code.toNat details
  | .unexpectedEof => .system "end of file" 0
  | .userError details => .system details 0

/-- What an action gives, or why it failed. -/
def attempt {α : Type} (action : IO α) : IO (Except FileFailure α) := do
  match ← action.toBaseIO with
  | .ok result => pure (.ok result)
  | .error error => pure (.error (.ofError error))

/-- Works on a path. The system would cut a name off at a zero byte, so such names are refused. -/
def atPath {α : Type} (path : Path) (action : String → IO α) : IO (Except FileFailure α) :=
  if path.text.toList.contains '\x00' then pure (.error .invalidName)
  else attempt (action path.text)

/-- Opens a path and reads a byte, which shows what is there. -/
def probe (path : Path) : IO (Except FileFailure Unit) := atPath path fun name => do
  let file ← IO.FS.Handle.mk name .read
  discard (file.read 1)

def readText (path : Path) : IO (Except FileFailure String) := do
  match ← atPath path fun name => IO.FS.readBinFile name with
  | .error failure => pure (.error failure)
  | .ok bytes =>
    match String.fromUTF8? bytes with
    | some text => pure (.ok text)
    | none => pure (.error .notUtf8)

instance : Host IO where
  isDirectory path := do
    match ← probe path with
    | .error .isDirectory => pure true
    | _ => pure false
  isPresent path := do
    match ← probe path with
    | .ok () | .error .isDirectory | .error (.system ..) => pure true
    | _ => pure false
  readFile := readText
  createDirectory path := atPath path fun name => IO.FS.createDir name
  writeFile path text := atPath path fun name => IO.FS.writeFile name text
  workingDirectory := attempt do pure ⟨(← IO.FS.realPath ".").toString⟩
  print text := do (← IO.getStdout).putStr text
  clock := IO.monoNanosNow

end PlusCalGo

def main (arguments : List String) : IO Unit :=
  PlusCalGo.Command.runArguments arguments
