import Mathlib.Data.List.Basic
import PlusCalGo.Definition
import PlusCalGo.Proofs.Resolution.Occurrences

/-!
# Which declaration an identifier sees

The scoping rules, told without scopes that change: every identifier of an algorithm stands at a
place where some declarations have been made, and its name is that of the closest one.
-/

namespace PlusCalGo

/-! ## Places -/

/-- The declarations that have been made at some place, latest first. -/
structure Sight where
  /-- The bindings of the `with` statements around, those of the innermost one first. -/
  bindings : List Definition
  /-- `self`, the parameters and the locals of the process or procedure around. -/
  own : List Definition
  /-- Constants and global variables. -/
  shared : List Definition

namespace Sight

/-- What a name stands for: bindings hide what the process or procedure declares, and this hides
what all of them share. -/
def declarationOf? (sight : Sight) (name : String) : Option Definition :=
  (sight.bindings.find? (·.name = name)).or
    ((sight.own.find? (·.name = name)).or (sight.shared.find? (·.name = name)))

def all (sight : Sight) : List Definition := sight.bindings ++ (sight.own ++ sight.shared)

theorem declarationOf?_eq (sight : Sight) (name : String) :
    sight.declarationOf? name = sight.all.find? (·.name = name) := by
  simp only [declarationOf?, all, List.find?_append]

end Sight

/-- An identifier and the place it stands at. -/
structure Site where
  sight : Sight
  uid : Uid
  name : String

/-- The declaration that is visible to the identifier. -/
def Site.declaration? (site : Site) : Option Definition := site.sight.declarationOf? site.name

def Expression.sites (sight : Sight) (expression : Expression) : List Site :=
  expression.named.map fun (uid, name) => ⟨sight, uid, name⟩

def Expression.listSites (sight : Sight) (expressions : List Expression) : List Site :=
  (listNamed expressions).map fun (uid, name) => ⟨sight, uid, name⟩

/-! ## Declarations -/

/-- A declaration in the source, with the expression that is evaluated for it. -/
structure NameDeclaration where
  definition : Definition
  value : Option Expression

def ConstantDecl.declaration (decl : ConstantDecl) : NameDeclaration :=
  ⟨⟨decl.uid, decl.name, .constant, TextLocation.unknown⟩, decl.value⟩

def VariableDecl.declaration (kind : ResourceKind → DefinitionKind) (decl : VariableDecl) :
    NameDeclaration :=
  ⟨⟨decl.uid, decl.name, kind decl.resource, decl.location⟩, decl.value⟩

def VariableDecl.binding (decl : VariableDecl) : NameDeclaration := decl.declaration fun _ => .bound

/-- What the bindings of `with` statements declare. -/
def VariableDecl.bound (bindings : List VariableDecl) : List Definition :=
  (bindings.map VariableDecl.binding).map NameDeclaration.definition

theorem VariableDecl.bound_append (first second : List VariableDecl) :
    bound (first ++ second) = bound first ++ bound second := by
  simp only [bound, List.map_append]

/-- The constants and the global variables. -/
def Algorithm.shared (algorithm : Algorithm) : List NameDeclaration :=
  algorithm.constants.map ConstantDecl.declaration ++
    algorithm.globals.map (VariableDecl.declaration .global)

def Procedure.own (procedure : Procedure) : List NameDeclaration :=
  procedure.params.map (VariableDecl.declaration .parameter) ++
    procedure.locals.map (VariableDecl.declaration .localVariable)

def Process.own (process : Process) : List NameDeclaration :=
  ⟨⟨process.selfDecl, "self", .processSelf, TextLocation.unknown⟩, none⟩ ::
    process.locals.map (VariableDecl.declaration .localVariable)

namespace NameDeclaration

/-- What has been declared after the declarations, latest first. -/
def after (earlier : List Definition) (declarations : List NameDeclaration) : List Definition :=
  (declarations.map definition).reverse ++ earlier

/-- The identifiers in the values; each value sees what is declared before it. -/
def sites (sight : List Definition → Sight) : List Definition → List NameDeclaration → List Site
  | _, [] => []
  | earlier, declaration :: rest =>
    (declaration.value.map (Expression.sites (sight earlier))).getD [] ++
      sites sight (declaration.definition :: earlier) rest

theorem after_cons (earlier : List Definition) (declaration : NameDeclaration)
    (rest : List NameDeclaration) :
    after earlier (declaration :: rest) = after (declaration.definition :: earlier) rest := by
  simp [after]

theorem after_append (earlier : List Definition) (first second : List NameDeclaration) :
    after earlier (first ++ second) = after (after earlier first) second := by
  simp [after]

theorem sites_append (sight : List Definition → Sight) (earlier : List Definition)
    (first second : List NameDeclaration) :
    sites sight earlier (first ++ second) =
      sites sight earlier first ++ sites sight (after earlier first) second := by
  induction first generalizing earlier with
  | nil => rfl
  | cons declaration rest ih => simp [sites, ih, after_cons]

end NameDeclaration

/-! ## Statements and bodies -/

namespace Statement

mutual

/-- The identifiers of a statement. -/
def sites (sight : Sight) : Statement → List Site
  | labeled _ _ body => listSites sight body
  | whileDo _ condition body => condition.sites sight ++ listSites sight body
  | ifElse _ condition yes no =>
    condition.sites sight ++ (listSites sight yes ++ listSites sight no)
  | either _ cases => casesSites sight cases
  | assign _ pairs => pairs.flatMap fun pair => pair.lhs.sites sight ++ pair.rhs.sites sight
  | call _ _ arguments | macroCall _ _ arguments => Expression.listSites sight arguments
  | withDo _ bindings body =>
    NameDeclaration.sites (fun bound => { sight with bindings := bound }) sight.bindings
        (bindings.map VariableDecl.binding) ++
      listSites { sight with
        bindings := NameDeclaration.after sight.bindings (bindings.map VariableDecl.binding) } body
  | print _ value | assert _ value | await _ value => value.sites sight
  | leave _ | skip _ | goto .. => []

def listSites (sight : Sight) : List Statement → List Site
  | [] => []
  | statement :: rest => statement.sites sight ++ listSites sight rest

def casesSites (sight : Sight) : List (List Statement) → List Site
  | [] => []
  | body :: rest => listSites sight body ++ casesSites sight rest

end

mutual

/-- The variables that a statement binds, at any depth. -/
def bindings : Statement → List VariableDecl
  | labeled _ _ body | whileDo _ _ body => listBindings body
  | ifElse _ _ yes no => listBindings yes ++ listBindings no
  | either _ cases => casesBindings cases
  | withDo _ bindings body => bindings ++ listBindings body
  | _ => []

def listBindings : List Statement → List VariableDecl
  | [] => []
  | statement :: rest => statement.bindings ++ listBindings rest

def casesBindings : List (List Statement) → List VariableDecl
  | [] => []
  | body :: rest => listBindings body ++ casesBindings rest

end

end Statement

def ProcessSelf.sites (sight : Sight) : ProcessSelf → List Site
  | single value => value.sites sight
  | range low high => low.sites sight ++ high.sites sight

/-- The identifiers of a body and of the declarations in front of it. -/
def bodySites (shared : List Definition) (own : List NameDeclaration) (body : List Statement) :
    List Site :=
  NameDeclaration.sites (fun own => ⟨[], own, shared⟩) [] own ++
    Statement.listSites ⟨[], NameDeclaration.after [] own, shared⟩ body

def bodyDeclarations (own : List NameDeclaration) (body : List Statement) : List Definition :=
  own.map NameDeclaration.definition ++ VariableDecl.bound (Statement.listBindings body)

def Procedure.sites (shared : List Definition) (procedure : Procedure) : List Site :=
  bodySites shared procedure.own procedure.body

def Procedure.declarations (procedure : Procedure) : List Definition :=
  bodyDeclarations procedure.own procedure.body

/-- The value of `self` sees nothing that the process declares. -/
def Process.sites (shared : List Definition) (process : Process) : List Site :=
  process.selfValue.sites ⟨[], [], shared⟩ ++ bodySites shared process.own process.body

def Process.declarations (process : Process) : List Definition :=
  bodyDeclarations process.own process.body

namespace Algorithm

/-- All identifiers of an algorithm: those in initial values, in the values of `self` and in
bodies. -/
def sites (algorithm : Algorithm) : List Site :=
  let shared := NameDeclaration.after [] algorithm.shared
  NameDeclaration.sites (fun shared => ⟨[], [], shared⟩) [] algorithm.shared ++
    (algorithm.procedures.flatMap (Procedure.sites shared) ++
      algorithm.processes.flatMap (Process.sites shared))

/-- All declarations of an algorithm. -/
def declarations (algorithm : Algorithm) : List Definition :=
  algorithm.shared.map NameDeclaration.definition ++
    (algorithm.procedures.flatMap Procedure.declarations ++
      algorithm.processes.flatMap Process.declarations)

end Algorithm

/-! ## Global declarations -/

theorem VariableDecl.isGlobal_of_mem_bound (bindings : List VariableDecl) :
    ∀ definition ∈ bound bindings, definition.kind.isGlobal = false := by
  intro definition hmem
  obtain ⟨declaration, hdeclaration, rfl⟩ := List.mem_map.1 hmem
  obtain ⟨decl, _, rfl⟩ := List.mem_map.1 hdeclaration
  rfl

/-- The declarations of a body are local if those in front of it are. -/
theorem isGlobal_of_mem_bodyDeclarations {own : List NameDeclaration} {body : List Statement}
    (hown : ∀ declaration ∈ own, declaration.definition.kind.isGlobal = false) :
    ∀ definition ∈ bodyDeclarations own body, definition.kind.isGlobal = false := by
  intro definition hmem
  rcases List.mem_append.1 hmem with hmem | hmem
  · obtain ⟨declaration, hdeclaration, rfl⟩ := List.mem_map.1 hmem
    exact hown declaration hdeclaration
  · exact VariableDecl.isGlobal_of_mem_bound _ definition hmem

theorem Procedure.isGlobal_of_mem_declarations (procedure : Procedure) :
    ∀ definition ∈ procedure.declarations, definition.kind.isGlobal = false := by
  apply isGlobal_of_mem_bodyDeclarations
  intro declaration hmem
  rcases List.mem_append.1 hmem with hmem | hmem
  · obtain ⟨decl, _, rfl⟩ := List.mem_map.1 hmem
    rfl
  · obtain ⟨decl, _, rfl⟩ := List.mem_map.1 hmem
    rfl

theorem Process.isGlobal_of_mem_declarations (process : Process) :
    ∀ definition ∈ process.declarations, definition.kind.isGlobal = false := by
  apply isGlobal_of_mem_bodyDeclarations
  intro declaration hmem
  rcases List.mem_cons.1 hmem with rfl | hmem
  · rfl
  · obtain ⟨decl, _, rfl⟩ := List.mem_map.1 hmem
    rfl

/-- Only the global variables are declared as such. -/
theorem Algorithm.filter_declarations (algorithm : Algorithm) :
    algorithm.declarations.filter (·.kind.isGlobal) =
      algorithm.globals.map fun decl => (decl.declaration .global).definition := by
  have hbodies : ∀ definition ∈ algorithm.procedures.flatMap Procedure.declarations ++
      algorithm.processes.flatMap Process.declarations, ¬definition.kind.isGlobal = true := by
    intro definition hmem
    rw [Bool.not_eq_true]
    rcases List.mem_append.1 hmem with hmem | hmem
    · obtain ⟨procedure, _, hmem⟩ := List.mem_flatMap.1 hmem
      exact procedure.isGlobal_of_mem_declarations definition hmem
    · obtain ⟨process, _, hmem⟩ := List.mem_flatMap.1 hmem
      exact process.isGlobal_of_mem_declarations definition hmem
  rw [declarations, List.filter_append, List.filter_eq_nil_iff.2 hbodies, List.append_nil, shared]
  simp [List.filter_map, Function.comp_def, ConstantDecl.declaration, VariableDecl.declaration,
    DefinitionKind.isGlobal]

end PlusCalGo
