import PlusCalGo.Project.Build

/-!
# Console texts

How problems, warnings and lock groups are shown to the user, line by line.
-/

namespace PlusCalGo

/-- The number of a line for people, who count from one. Negative lines wrap around. -/
def TextLocation.lineNumber (location : TextLocation) : UInt64 :=
  location.start.line.toInt64.toUInt64 + 1

namespace Diagnostic

/-- The line that names the file of a problem, unless no file is known. -/
def fileLine (kind : DiagnosticKind) (file : String) : List String :=
  if file.isEmpty then []
  else match kind with
    | .malformed => ["", "(╯°□°)╯  🔥🔥 " ++ file ++ " 🔥🔥  Σ(°△°;) "]
    | .rule => ["", "ヽ(˶°o°)ﾉ  🔥🔥🔥 " ++ file ++ " 🔥🔥🔥  ╰(°□°╰) "]
    | .internal => ["", "ヽ༼☉ ‿ ⚆༽ﾉ  🔥🔥🔥🔥 " ++ file ++ " 🔥🔥🔥🔥  ╰(° _ o╰) "]
    | .config => ["", " (-_-)  🔥🔥🔥🔥 " ++ file ++ " 🔥🔥🔥🔥  <(^~^)/ "]
    | .file => []

/-- The lines that say what kind of problem there is. -/
def kindLines (diagnostic : Diagnostic) : List String :=
  let line := "Line " ++ Nat.repr diagnostic.location.lineNumber.toNat
  match diagnostic.problem.kind with
  | .malformed => ["Malformed algorithm", line]
  | .rule => ["Rule", line]
  | .internal => ["INTERNAL COMPILER ERROR - ", "this is a bug in pgo (not your fault)"]
  | .config => ["CONFIG FILE ISSUE - ",
      "Malformed config file, something doesn't make sense inside pgo.toml"]
  | .file => []

private def entryLine (title : String) : Option String → List String
  | some text => [title ++ text]
  | none => []

/-- What is shown of a problem, with its file under the given name. -/
def lines (diagnostic : Diagnostic) (file : String) : List String :=
  let problem := diagnostic.problem
  match problem.kind with
  | .file => ["🏚 Can't find/read file or directory: " ++ file, problem.message]
  | kind =>
    fileLine kind file ++ diagnostic.kindLines ++ [problem.message] ++
      entryLine "During: " problem.stage? ++ entryLine "Suggestion: " problem.suggestion? ++
      entryLine "Or: " problem.alternative?

end Diagnostic

def Warning.lines (warning : Warning) : List String :=
  ["WARNING: ", "Global variable '" ++ warning.globalName ++ "' is never accessed by any label"]

namespace AtomicityReport

private def joined (names : List String) : String := ", ".intercalate names

def lines (report : AtomicityReport) : List String :=
  ["", "Atomicity for " ++ report.algorithm] ++
    (if report.groups.isEmpty then ["  No label touches a global variable, no locks needed"]
      else []) ++
    report.groups.flatMap (fun entry =>
      ["", "  Lock group " ++ entry.group.text, "    labels: " ++ joined entry.labels,
        "    reads:  " ++ joined entry.reads, "    writes: " ++ joined entry.writes]) ++
    (if report.unprotected.isEmpty then []
      else ["", "  Unlocked labels: " ++ joined report.unprotected])

end AtomicityReport

namespace Host

variable {m : Type → Type} [Monad m] [Host m]

def printLine (text : String) : m Unit := Host.print (text ++ "\n")

def printLines : List String → m Unit
  | [] => pure ()
  | line :: rest => do
    printLine line
    printLines rest

/-- The name of a file as seen from the working directory. -/
def displayName (file : Path) : m String := do
  match ← Host.workingDirectory with
  | .ok directory => pure (file.withoutMark.relativeTo directory.withoutMark).text
  | .error failure => do
    printLine ("Could not read the current directory to shorten the error path: " ++ failure.text)
    pure file.withoutMark.text

def printDiagnostics : List Diagnostic → m Unit
  | [] => pure ()
  | diagnostic :: rest => do
    printLines (diagnostic.lines (← displayName diagnostic.file))
    printDiagnostics rest

/-- Shows all errors and then all warnings. -/
def printMessages (messages : Messages) : m Unit := do
  printDiagnostics messages.errors
  printLines (messages.warnings.flatMap Warning.lines)

end Host

end PlusCalGo
