import PlusCalGo.Diagnostic
import PlusCalGo.Go.Code

/-!
# Building function bodies

Statements are added to the innermost open block. Blocks inside of statements are opened, filled and
closed, and then put where they belong. Every label is declared once, and every jump needs a label
by the end.
-/

namespace PlusCalGo.Go

/-- The statements of the innermost open block and of the blocks around it, the names of the labels
declared, and the names jumped to, latest first. -/
structure Builder (κ : Type) where
  current : List (Code κ)
  enclosing : List (List (Code κ))
  labels : List String
  targets : List String

namespace Builder

variable {κ : Type}

def empty : Builder κ := ⟨[], [], [], []⟩

instance : Inhabited (Builder κ) := ⟨empty⟩

def add (builder : Builder κ) (code : Code κ) : Builder κ :=
  { builder with current := builder.current ++ [code] }

def addLine (builder : Builder κ) (text : String) : Builder κ := builder.add (.line text)

def openBlock (builder : Builder κ) : Builder κ :=
  { builder with current := [], enclosing := builder.current :: builder.enclosing }

/-- Gives the statements of the innermost block back. The function body itself is not closed. -/
def closeBlock (builder : Builder κ) : Except Diagnostic (List (Code κ) × Builder κ) :=
  match builder.enclosing with
  | [] => .error (.of .blockNotOpen)
  | outer :: enclosing =>
    .ok (builder.current, { builder with current := outer, enclosing := enclosing })

def declareLabel (builder : Builder κ) (name : String) : Except Diagnostic (Builder κ) :=
  if name ∈ builder.labels then .error (.of (.codeLabelRedeclared name))
  else .ok ({ builder with labels := name :: builder.labels }.add (.label name))

/-- A section may jump back to its label, which has to stand in this function. -/
def ensureLabelDeclared (builder : Builder κ) (name : String) : Except Diagnostic Unit :=
  if name ∈ builder.labels then .ok () else .error (.of (.sectionBeforeLabel name))

def goTo (builder : Builder κ) (name : String) : Builder κ :=
  { builder with targets := name :: builder.targets }.add (.goto name)

/-- The least of some names. -/
def least? : List String → Option String
  | [] => none
  | name :: rest =>
    match least? rest with
    | some other => some (if other < name then other else name)
    | none => some name

/-- The least of the names that are jumped to and not declared. -/
def missingTarget? (builder : Builder κ) : Option String :=
  least? (builder.targets.filter (· ∉ builder.labels))

/-- Closes the function body. -/
def finish (builder : Builder κ) : Except Diagnostic (FunctionBody κ) :=
  if builder.enclosing ≠ [] then .error (.of (.unclosedBlocks builder.enclosing.length))
  else match builder.missingTarget? with
    | some name => .error (.of (.gotoWithoutLabel name))
    | none => .ok ⟨builder.current, builder.targets⟩

end Builder

end PlusCalGo.Go
