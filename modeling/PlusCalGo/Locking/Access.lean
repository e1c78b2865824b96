import PlusCalGo.Diagnostic

/-!
# Accesses

What the statements of a body read and write, each under the label of its step.
-/

namespace PlusCalGo

/-- An expression that is read, or the variable at the root of an assignment target. -/
structure Access where
  isWrite : Bool
  expression : Expression
  label : Label

/-- The accesses found before the end, or before the problem that cut the search short. -/
structure AccessTrace where
  accesses : List Access
  problem? : Option Diagnostic

namespace AccessTrace

def nil : AccessTrace := ⟨[], none⟩

def halt (problem : Problem) : AccessTrace := ⟨[], some (.of problem)⟩

def one (access : Access) : AccessTrace := ⟨[access], none⟩

def append (first second : AccessTrace) : AccessTrace :=
  match first.problem? with
  | some _ => first
  | none => ⟨first.accesses ++ second.accesses, second.problem?⟩

instance : Append AccessTrace := ⟨append⟩

def concat (traces : List AccessTrace) : AccessTrace := traces.foldr append nil

end AccessTrace

namespace Expression

def reading (label : Label) (expression : Expression) : AccessTrace :=
  .one ⟨false, expression, label⟩

/-- The accesses of an assignment target: the subscripts are read, outer ones first, and the
variable is written. -/
def writing (label : Label) : Expression → AccessTrace
  | identifier uid name => .one ⟨true, identifier uid name, label⟩
  | index _ function params => .concat (params.map (reading label)) ++ writing label function
  | expression => .halt (.targetNotVariable expression.uid)

end Expression

namespace Statement

mutual

/-- The accesses of a statement inside the step of a label, if there is one. -/
def accesses (label? : Option Label) : Statement → AccessTrace
  | labeled _ label body => listAccesses (some label) body
  | statement@(whileDo _ condition body) => under statement label? fun label =>
    condition.reading label ++ listAccesses label? body
  | statement@(ifElse _ condition yes no) => under statement label? fun label =>
    condition.reading label ++ (listAccesses label? yes ++ listAccesses label? no)
  | statement@(either _ cases) => under statement label? fun _ => casesAccesses label? cases
  | statement@(assign _ pairs) => under statement label? fun label =>
    .concat (pairs.map fun pair => pair.lhs.writing label ++ pair.rhs.reading label)
  | statement@(call _ _ arguments) => under statement label? fun label =>
    .concat (arguments.map (Expression.reading label))
  | statement@(macroCall _ target _) => under statement label? fun _ =>
    .halt (.macroInInference target)
  | statement@(withDo _ bindings body) => under statement label? fun label =>
    .concat (bindings.filterMap fun decl => decl.value.map (Expression.reading label)) ++
      listAccesses label? body
  | statement@(print _ value) | statement@(assert _ value) | statement@(await _ value) =>
    under statement label? fun label => value.reading label
  | statement@(leave _) | statement@(skip _) | statement@(goto ..) =>
    under statement label? fun _ => .nil
where
  under (statement : Statement) (label? : Option Label) (found : Label → AccessTrace) :
      AccessTrace :=
    match label? with
    | some label => found label
    | none => .halt (.outsideLabel statement.uid)

def listAccesses (label? : Option Label) : List Statement → AccessTrace
  | [] => .nil
  | statement :: rest => statement.accesses label? ++ listAccesses label? rest

def casesAccesses (label? : Option Label) : List (List Statement) → AccessTrace
  | [] => .nil
  | statements :: rest => listAccesses label? statements ++ casesAccesses label? rest

end

/-- The accesses of a whole body. -/
def bodyAccesses (body : List Statement) : AccessTrace := listAccesses none body

end Statement

end PlusCalGo
