import PlusCalGo.Diagnostic

/-!
# Definitions

Every declaration of an algorithm, and the declaration each identifier refers to.
-/

namespace PlusCalGo

/-- What a name was declared as. Locals belong to one process or procedure, `bound` names to a
`with`. -/
inductive DefinitionKind where
  | global (resource : ResourceKind)
  | localVariable (resource : ResourceKind)
  | parameter (resource : ResourceKind)
  | bound
  | constant
  | processSelf
deriving DecidableEq

def DefinitionKind.isGlobal : DefinitionKind → Bool
  | global _ => true
  | _ => false

def DefinitionKind.resource : DefinitionKind → ResourceKind
  | global resource | localVariable resource | parameter resource => resource
  | bound | constant | processSelf => .plain

structure Definition where
  uid : Uid
  name : String
  kind : DefinitionKind
  location : TextLocation
deriving DecidableEq

def Definition.resource (definition : Definition) : ResourceKind := definition.kind.resource

/-- Definitions in the order of their declaration, and references with the latest one first. -/
structure Definitions where
  toList : List Definition
  references : List (Uid × Uid)

namespace Definitions

def empty : Definitions := ⟨[], []⟩

def find? (definitions : Definitions) (declaration : Uid) : Option Definition :=
  definitions.toList.find? (·.uid = declaration)

/-- Adds a definition, unless its uid has one already. -/
def add (definitions : Definitions) (definition : Definition) : Except Diagnostic Definitions :=
  if (definitions.find? definition.uid).isSome then
    .error (.of (.registeredTwice definition.uid definition.name))
  else .ok { definitions with toList := definitions.toList ++ [definition] }

/-- Makes an identifier refer to a declaration; a later reference replaces an earlier one. -/
def addReference (definitions : Definitions) (identifier declaration : Uid) : Definitions :=
  { definitions with references := (identifier, declaration) :: definitions.references }

def declarationOf? (definitions : Definitions) (identifier : Uid) : Option Uid :=
  (definitions.references.find? (·.1 = identifier)).map (·.2)

/-- The declaration an identifier refers to. -/
def followReference (definitions : Definitions) (identifier : Uid) : Except Diagnostic Uid :=
  match definitions.declarationOf? identifier with
  | some declaration => .ok declaration
  | none => .error (.of (.unresolvedIdentifier identifier))

def definition (definitions : Definitions) (declaration : Uid) : Except Diagnostic Definition :=
  match definitions.find? declaration with
  | some definition => .ok definition
  | none => .error (.of (.unregistered declaration))

/-- The definition behind an identifier. -/
def resolve (definitions : Definitions) (identifier : Uid) : Except Diagnostic Definition := do
  definitions.definition (← definitions.followReference identifier)

/-- The name under which a declaration is registered. -/
def nameOf (definitions : Definitions) (declaration : Uid) : Except Diagnostic String :=
  (definitions.definition declaration).map (·.name)

def isGlobal (definitions : Definitions) (declaration : Uid) : Bool :=
  match definitions.find? declaration with
  | some definition => definition.kind.isGlobal
  | none => false

/-- The global variables in the order of their declaration. -/
def globals (definitions : Definitions) : List Definition :=
  definitions.toList.filter (·.kind.isGlobal)

end Definitions

end PlusCalGo
