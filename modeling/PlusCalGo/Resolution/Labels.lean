import PlusCalGo.Diagnostic

/-!
# Labels

The rules for labels in the body of a process or procedure: names are used once, jumps go to labels
of the same body, and code that is reached only after control has left the step begins with a label.
-/

namespace PlusCalGo.Statement

/-! ## Names -/

mutual

/-- The names of the labels in a statement together with those seen before, latest first. -/
def labelNames (seen : List String) : Statement → Except Diagnostic (List String)
  | labeled mark label body =>
    if label.name = Label.done then .error (.located .reservedLabel mark.location)
    else if label.name ∈ seen then
      .error (.located (.duplicateLabel label.name) mark.location)
    else listLabelNames (label.name :: seen) body
  | whileDo _ _ body | withDo _ _ body => listLabelNames seen body
  | ifElse _ _ yes no => do listLabelNames (← listLabelNames seen yes) no
  | either _ cases => casesLabelNames seen cases
  | assign .. | leave _ | skip _ | call .. | macroCall .. | print .. | assert .. | await ..
  | goto .. => .ok seen

def listLabelNames (seen : List String) : List Statement → Except Diagnostic (List String)
  | [] => .ok seen
  | statement :: rest => do listLabelNames (← labelNames seen statement) rest

def casesLabelNames (seen : List String) : List (List Statement) → Except Diagnostic (List String)
  | [] => .ok seen
  | statements :: rest => do casesLabelNames (← listLabelNames seen statements) rest

end

/-! ## Jumps -/

mutual

/-- Every jump goes to one of the labels or finishes the body. -/
def checkJumps (labels : List String) : Statement → Except Diagnostic Unit
  | goto mark target =>
    if target ≠ Label.done ∧ target ∉ labels then
      .error (.located (.unknownGotoTarget target) mark.location)
    else .ok ()
  | labeled _ _ body | whileDo _ _ body | withDo _ _ body => listCheckJumps labels body
  | ifElse _ _ yes no => do listCheckJumps labels yes; listCheckJumps labels no
  | either _ cases => casesCheckJumps labels cases
  | assign .. | leave _ | skip _ | call .. | macroCall .. | print .. | assert .. | await .. =>
    .ok ()

def listCheckJumps (labels : List String) : List Statement → Except Diagnostic Unit
  | [] => .ok ()
  | statement :: rest => do checkJumps labels statement; listCheckJumps labels rest

def casesCheckJumps (labels : List String) : List (List Statement) → Except Diagnostic Unit
  | [] => .ok ()
  | statements :: rest => do listCheckJumps labels statements; casesCheckJumps labels rest

end

/-! ## Placement -/

mutual

/-- Must the next statement begin a step? Loops are left by their condition, which is still inside
the step the loop is in. -/
def needsLabelAfter : Statement → Bool
  | leave _ | call .. | macroCall .. | goto .. => true
  | statement@(ifElse ..) | statement@(either ..) | statement@(withDo ..) =>
    statement.transfersControl
  | labeled _ _ body => lastNeedsLabelAfter body
  | whileDo .. | assign .. | skip _ | print .. | assert .. | await .. => false

def lastNeedsLabelAfter : List Statement → Bool
  | [] => false
  | [statement] => needsLabelAfter statement
  | _ :: statement :: rest => lastNeedsLabelAfter (statement :: rest)

end

/-- Every statement of the list that needs a label has one. -/
def checkAdjacent : List Statement → Except Diagnostic Unit
  | previous :: next :: rest =>
    if previous.needsLabelAfter ∧ !next.isLabeled then
      .error (.located .missingLabel next.location)
    else checkAdjacent (next :: rest)
  | _ => .ok ()

mutual

def checkPlacement : Statement → Except Diagnostic Unit
  | labeled _ _ body | whileDo _ _ body | withDo _ _ body => do
    checkAdjacent body
    listCheckPlacement body
  | ifElse _ _ yes no => do
    checkAdjacent yes
    listCheckPlacement yes
    checkAdjacent no
    listCheckPlacement no
  | either _ cases => casesCheckPlacement cases
  | assign .. | leave _ | skip _ | call .. | macroCall .. | print .. | assert .. | await ..
  | goto .. => .ok ()

def listCheckPlacement : List Statement → Except Diagnostic Unit
  | [] => .ok ()
  | statement :: rest => do checkPlacement statement; listCheckPlacement rest

def casesCheckPlacement : List (List Statement) → Except Diagnostic Unit
  | [] => .ok ()
  | statements :: rest => do
    checkAdjacent statements
    listCheckPlacement statements
    casesCheckPlacement rest

end

/-- All rules for the labels of one body. -/
def checkLabels (body : List Statement) : Except Diagnostic Unit := do
  let labels ← listLabelNames [] body
  listCheckJumps labels body
  checkAdjacent body
  listCheckPlacement body

end PlusCalGo.Statement
