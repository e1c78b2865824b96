import PlusCalGo.Definition

/-!
# Scopes

Names and what they stand for, innermost scope first. A scope holds a name once, and hides it in
the scopes around.
-/

namespace PlusCalGo

abbrev Scope := List (String × Uid)

/-- The innermost scope and those around it. -/
structure Scopes where
  inner : Scope
  outer : List Scope

namespace Scopes

def empty : Scopes := ⟨[], []⟩

/-- Opens a new innermost scope. -/
def enter (scopes : Scopes) : Scopes := ⟨[], scopes.inner :: scopes.outer⟩

def lookup (scopes : Scopes) (name : String) : Option Uid :=
  ((scopes.inner :: scopes.outer).findSome? fun scope => scope.find? (·.1 = name)).map (·.2)

/-- Declares a name in the innermost scope. -/
def declare (scopes : Scopes) (definitions : Definitions) (definition : Definition) :
    Except Diagnostic (Scopes × Definitions) :=
  if scopes.inner.any (·.1 = definition.name) then
    .error (.located (.alreadyDeclared definition.name) definition.location)
  else do
    let definitions ← definitions.add definition
    pure ({ scopes with inner := (definition.name, definition.uid) :: scopes.inner }, definitions)

end Scopes

end PlusCalGo
