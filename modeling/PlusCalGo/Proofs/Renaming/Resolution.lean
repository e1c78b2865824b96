import Mathlib.Data.List.Basic
import PlusCalGo.Proofs.Renaming.Syntax
import PlusCalGo.Resolution.Basic

/-!
# Resolution of renamed algorithms

Resolution compares uids and stores them, and does nothing else with them. A renamed algorithm
therefore breaks the same rule, or has the renamed definitions.
-/

namespace PlusCalGo

/-! ## Problems -/

def Problem.rename (r : Renaming) : Problem → Problem
  | duplicateUid uid => duplicateUid (r uid)
  | registeredTwice uid name => registeredTwice (r uid) name
  | unresolvedIdentifier uid => unresolvedIdentifier (r uid)
  | unregistered uid => unregistered (r uid)
  | labelRegrouped label old new => labelRegrouped (r label) old new
  | labelUngrouped label => labelUngrouped (r label)
  | outsideLabel statement => outsideLabel (r statement)
  | targetNotVariable expression => targetNotVariable (r expression)
  | otherProcess first second => otherProcess (r first) (r second)
  | otherLabelName label first second => otherLabelName (label.map r) first second
  | problem => problem

def Diagnostic.rename (r : Renaming) (diagnostic : Diagnostic) : Diagnostic :=
  { diagnostic with problem := diagnostic.problem.rename r }

/-- Problems stay what they are. -/
@[simp] theorem Problem.kind_rename (r : Renaming) (problem : Problem) :
    (problem.rename r).kind = problem.kind := by
  cases problem <;> rfl

theorem Diagnostic.rename_id (diagnostic : Diagnostic) : diagnostic.rename id = diagnostic := by
  obtain ⟨problem, location, file⟩ := diagnostic
  cases problem <;> simp [rename, Problem.rename]

/-! ## Results -/

namespace Renaming

variable {r : Renaming} {α α' β β' : Type}

/-- A result after a renaming, which changes the value as told and the uids of a problem. -/
def result (r : Renaming) (change : α → α') : Except Diagnostic α → Except Diagnostic α'
  | .ok value => .ok (change value)
  | .error problem => .error (problem.rename r)

/-- Two steps are renamed one after the other. -/
theorem bind {change : α → α'} {then? : β → β'} {first : Except Diagnostic α}
    {first' : Except Diagnostic α'} {next : α → Except Diagnostic β}
    {next' : α' → Except Diagnostic β'} (hfirst : first' = r.result change first)
    (hnext : ∀ value, next' (change value) = r.result then? (next value)) :
    (first' >>= next') = r.result then? (first >>= next) := by
  subst hfirst
  cases first with
  | ok value => exact hnext value
  | error problem => rfl

end Renaming

/-! ## Labels -/

namespace Statement

variable {r : Renaming}

mutual

theorem labelNames_rename (seen : List String) (statement : Statement) :
    labelNames seen (statement.rename r) = r.result id (labelNames seen statement) := by
  cases statement with
  | labeled mark label body =>
    simp only [rename, labelNames, Label.rename, Mark.rename]
    split
    · rfl
    · split
      · rfl
      · exact listLabelNames_rename _ body
  | whileDo mark condition body => exact listLabelNames_rename seen body
  | ifElse mark condition yes no =>
    exact Renaming.bind (listLabelNames_rename seen yes) fun seen => listLabelNames_rename seen no
  | either mark cases => exact casesLabelNames_rename seen cases
  | withDo mark bindings body => exact listLabelNames_rename seen body
  | _ => rfl

theorem listLabelNames_rename (seen : List String) (statements : List Statement) :
    listLabelNames seen (listRename r statements) =
      r.result id (listLabelNames seen statements) := by
  cases statements with
  | nil => rfl
  | cons statement rest =>
    exact Renaming.bind (labelNames_rename seen statement) fun seen =>
      listLabelNames_rename seen rest

theorem casesLabelNames_rename (seen : List String) (cases : List (List Statement)) :
    casesLabelNames seen (casesRename r cases) = r.result id (casesLabelNames seen cases) := by
  cases cases with
  | nil => rfl
  | cons body rest =>
    exact Renaming.bind (listLabelNames_rename seen body) fun seen =>
      casesLabelNames_rename seen rest

end

mutual

theorem checkJumps_rename (labels : List String) (statement : Statement) :
    checkJumps labels (statement.rename r) = r.result id (checkJumps labels statement) := by
  cases statement with
  | labeled mark label body => exact listCheckJumps_rename labels body
  | whileDo mark condition body => exact listCheckJumps_rename labels body
  | ifElse mark condition yes no =>
    exact Renaming.bind (listCheckJumps_rename labels yes) fun _ => listCheckJumps_rename labels no
  | either mark cases => exact casesCheckJumps_rename labels cases
  | withDo mark bindings body => exact listCheckJumps_rename labels body
  | goto mark target =>
    simp only [rename, checkJumps, Mark.rename]
    split <;> rfl
  | _ => rfl

theorem listCheckJumps_rename (labels : List String) (statements : List Statement) :
    listCheckJumps labels (listRename r statements) =
      r.result id (listCheckJumps labels statements) := by
  cases statements with
  | nil => rfl
  | cons statement rest =>
    exact Renaming.bind (checkJumps_rename labels statement) fun _ =>
      listCheckJumps_rename labels rest

theorem casesCheckJumps_rename (labels : List String) (cases : List (List Statement)) :
    casesCheckJumps labels (casesRename r cases) =
      r.result id (casesCheckJumps labels cases) := by
  cases cases with
  | nil => rfl
  | cons body rest =>
    exact Renaming.bind (listCheckJumps_rename labels body) fun _ =>
      casesCheckJumps_rename labels rest

end

mutual

theorem needsLabelAfter_rename (statement : Statement) :
    (statement.rename r).needsLabelAfter = statement.needsLabelAfter := by
  cases statement with
  | labeled mark label body => exact lastNeedsLabelAfter_rename body
  | ifElse mark condition yes no => exact transfersControl_rename (.ifElse mark condition yes no)
  | either mark cases => exact transfersControl_rename (.either mark cases)
  | withDo mark bindings body => exact transfersControl_rename (.withDo mark bindings body)
  | _ => rfl

theorem lastNeedsLabelAfter_rename (statements : List Statement) :
    lastNeedsLabelAfter (listRename r statements) = lastNeedsLabelAfter statements := by
  match statements with
  | [] => rfl
  | [statement] => exact needsLabelAfter_rename statement
  | _ :: statement :: rest => exact lastNeedsLabelAfter_rename (statement :: rest)

end

theorem checkAdjacent_rename (statements : List Statement) :
    checkAdjacent (listRename r statements) = r.result id (checkAdjacent statements) := by
  induction statements with
  | nil => rfl
  | cons previous rest ih =>
    cases rest with
    | nil => rfl
    | cons next rest =>
      simp only [listRename, checkAdjacent, needsLabelAfter_rename, isLabeled_rename,
        location_rename]
      split
      · rfl
      · exact ih

/-- Both rules for the labels of a list of statements are kept or broken. -/
private theorem placement_rename {statements : List Statement}
    (h : listCheckPlacement (listRename r statements) =
      r.result id (listCheckPlacement statements)) :
    (checkAdjacent (listRename r statements) >>= fun _ =>
      listCheckPlacement (listRename r statements)) =
      r.result id (checkAdjacent statements >>= fun _ => listCheckPlacement statements) :=
  Renaming.bind (checkAdjacent_rename statements) fun _ => h

mutual

theorem checkPlacement_rename (statement : Statement) :
    checkPlacement (statement.rename r) = r.result id (checkPlacement statement) := by
  cases statement with
  | labeled mark label body => exact placement_rename (listCheckPlacement_rename body)
  | whileDo mark condition body => exact placement_rename (listCheckPlacement_rename body)
  | ifElse mark condition yes no =>
    refine Renaming.bind (checkAdjacent_rename yes) fun _ => ?_
    refine Renaming.bind (listCheckPlacement_rename yes) fun _ => ?_
    exact placement_rename (listCheckPlacement_rename no)
  | either mark cases => exact casesCheckPlacement_rename cases
  | withDo mark bindings body => exact placement_rename (listCheckPlacement_rename body)
  | _ => rfl

theorem listCheckPlacement_rename (statements : List Statement) :
    listCheckPlacement (listRename r statements) =
      r.result id (listCheckPlacement statements) := by
  cases statements with
  | nil => rfl
  | cons statement rest =>
    exact Renaming.bind (checkPlacement_rename statement) fun _ => listCheckPlacement_rename rest

theorem casesCheckPlacement_rename (cases : List (List Statement)) :
    casesCheckPlacement (casesRename r cases) =
      r.result id (casesCheckPlacement cases) := by
  cases cases with
  | nil => rfl
  | cons body rest =>
    refine Renaming.bind (checkAdjacent_rename body) fun _ => ?_
    exact Renaming.bind (listCheckPlacement_rename body) fun _ => casesCheckPlacement_rename rest

end

/-- A renamed body keeps the rules for labels, or breaks the same one. -/
theorem checkLabels_rename (body : List Statement) :
    checkLabels (listRename r body) = r.result id (checkLabels body) := by
  refine Renaming.bind (listLabelNames_rename [] body) fun labels => ?_
  refine Renaming.bind (listCheckJumps_rename labels body) fun _ => ?_
  exact placement_rename (listCheckPlacement_rename body)

end Statement

/-! ## Definitions -/

section Definitions

variable {r : Renaming}

def Definition.rename (r : Renaming) (definition : Definition) : Definition :=
  { definition with uid := r definition.uid }

namespace Definitions

def rename (r : Renaming) (definitions : Definitions) : Definitions :=
  ⟨definitions.toList.map (Definition.rename r),
    definitions.references.map fun reference => (r reference.1, r reference.2)⟩

theorem rename_id (definitions : Definitions) : definitions.rename id = definitions := by
  have hdefinition : Definition.rename id = id := rfl
  simp [rename, hdefinition]

variable (hr : Function.Injective r) (definitions : Definitions)
include hr

theorem find?_rename (uid : Uid) :
    (definitions.rename r).find? (r uid) = (definitions.find? uid).map (Definition.rename r) := by
  have hsame : (fun definition : Definition => decide (definition.uid = r uid)) ∘
      Definition.rename r = fun definition => decide (definition.uid = uid) := by
    funext definition
    simp [Definition.rename, hr.eq_iff]
  rw [find?, rename, List.find?_map, hsame, find?]

theorem add_rename (definition : Definition) :
    (definitions.rename r).add (definition.rename r) =
      r.result (rename r) (definitions.add definition) := by
  have hfind : ((definitions.rename r).find? (definition.rename r).uid).isSome =
      (definitions.find? definition.uid).isSome := by
    rw [Definition.rename, find?_rename hr, Option.isSome_map]
  unfold add
  rw [hfind]
  split
  · rfl
  · simp [Renaming.result, rename]

theorem declarationOf?_rename (identifier : Uid) :
    (definitions.rename r).declarationOf? (r identifier) =
      (definitions.declarationOf? identifier).map r := by
  have hsame : (fun reference : Uid × Uid => decide (reference.1 = r identifier)) ∘
      (fun reference : Uid × Uid => (r reference.1, r reference.2)) =
        fun reference => decide (reference.1 = identifier) := by
    funext reference
    simp [hr.eq_iff]
  rw [declarationOf?, rename, List.find?_map, hsame, declarationOf?, Option.map_map,
    Option.map_map]
  rfl

theorem followReference_rename (identifier : Uid) :
    (definitions.rename r).followReference (r identifier) =
      r.result r (definitions.followReference identifier) := by
  unfold followReference
  rw [declarationOf?_rename hr]
  cases definitions.declarationOf? identifier <;> rfl

theorem definition_rename (declaration : Uid) :
    (definitions.rename r).definition (r declaration) =
      r.result (Definition.rename r) (definitions.definition declaration) := by
  unfold definition
  rw [find?_rename hr]
  cases definitions.find? declaration <;> rfl

theorem resolve_rename (identifier : Uid) :
    (definitions.rename r).resolve (r identifier) =
      r.result (Definition.rename r) (definitions.resolve identifier) :=
  Renaming.bind (followReference_rename hr definitions identifier)
    (definition_rename hr definitions)

theorem isGlobal_rename (declaration : Uid) :
    (definitions.rename r).isGlobal (r declaration) = definitions.isGlobal declaration := by
  unfold isGlobal
  rw [find?_rename hr]
  cases definitions.find? declaration <;> rfl

omit hr

theorem globals_rename : (definitions.rename r).globals =
    definitions.globals.map (Definition.rename r) := by
  rw [globals, rename, List.filter_map]
  rfl

end Definitions

end Definitions

/-! ## Scopes -/

namespace Scopes

variable {r : Renaming}

def rename (r : Renaming) (scopes : Scopes) : Scopes :=
  let renameScope (scope : Scope) : Scope := scope.map fun entry => (entry.1, r entry.2)
  ⟨renameScope scopes.inner, scopes.outer.map renameScope⟩

theorem lookup_rename (scopes : Scopes) (name : String) :
    (scopes.rename r).lookup name = (scopes.lookup name).map r := by
  have hall (all : List Scope) :
      ((all.map fun scope => scope.map fun entry => (entry.1, r entry.2)).findSome?
        fun scope => scope.find? (·.1 = name)) =
      (all.findSome? fun scope => scope.find? (·.1 = name)).map
        fun entry => (entry.1, r entry.2) := by
    induction all with
    | nil => rfl
    | cons scope rest ih =>
      have hscope : (scope.map fun entry => (entry.1, r entry.2)).find? (·.1 = name) =
          (scope.find? (·.1 = name)).map fun entry => (entry.1, r entry.2) := by
        rw [List.find?_map]
        rfl
      rw [List.map_cons, List.findSome?_cons, List.findSome?_cons, hscope, ih]
      cases scope.find? (·.1 = name) <;> rfl
  have hentries := hall (scopes.inner :: scopes.outer)
  rw [List.map_cons] at hentries
  simp only [lookup, rename, hentries, Option.map_map]
  rfl

theorem declare_rename (hr : Function.Injective r) (scopes : Scopes) (definitions : Definitions)
    (definition : Definition) :
    (scopes.rename r).declare (definitions.rename r) (definition.rename r) =
      r.result (fun after => (after.1.rename r, after.2.rename r))
        (scopes.declare definitions definition) := by
  have hdeclared : (scopes.rename r).inner.any (·.1 = (definition.rename r).name) =
      scopes.inner.any (·.1 = definition.name) := by
    simp only [rename, Definition.rename, List.any_map]
    rfl
  unfold declare
  rw [hdeclared]
  split
  · rfl
  · exact Renaming.bind (Definitions.add_rename hr definitions definition) fun _ => rfl

end Scopes

/-! ## Expressions -/

namespace Expression

variable {r : Renaming}

mutual

theorem resolve_rename (scopes : Scopes) (location : TextLocation) (expression : Expression)
    (definitions : Definitions) :
    (expression.rename r).resolve (scopes.rename r) location (definitions.rename r) =
      r.result (Definitions.rename r) (expression.resolve scopes location definitions) := by
  cases expression with
  | identifier uid name =>
    simp only [rename, resolve, Scopes.lookup_rename]
    cases scopes.lookup name <;> rfl
  | index uid function params =>
    exact Renaming.bind (resolve_rename scopes location function definitions)
      (listResolve_rename scopes location params)
  | binary uid op lhs rhs =>
    exact Renaming.bind (resolve_rename scopes location lhs definitions)
      (resolve_rename scopes location rhs)
  | unary uid op operand => exact resolve_rename scopes location operand definitions
  | tuple uid elements => exact listResolve_rename scopes location elements definitions
  | ifElse uid condition yes no =>
    refine Renaming.bind (resolve_rename scopes location condition definitions) fun first => ?_
    exact Renaming.bind (resolve_rename scopes location yes first)
      (resolve_rename scopes location no)
  | apply uid name args => exact listResolve_rename scopes location args definitions
  | _ => rfl

theorem listResolve_rename (scopes : Scopes) (location : TextLocation)
    (expressions : List Expression) (definitions : Definitions) :
    listResolve (scopes.rename r) location (listRename r expressions) (definitions.rename r) =
      r.result (Definitions.rename r) (listResolve scopes location expressions definitions) := by
  cases expressions with
  | nil => rfl
  | cons expression rest =>
    exact Renaming.bind (resolve_rename scopes location expression definitions)
      (listResolve_rename scopes location rest)

end

end Expression

/-! ## Declarations -/

namespace Resolved

variable {r : Renaming}

def rename (r : Renaming) (state : Resolved) : Resolved :=
  ⟨state.scopes.rename r, state.definitions.rename r⟩

theorem resolve_rename (state : Resolved) (value : Expression) (location : TextLocation) :
    (state.rename r).resolve (value.rename r) location =
      r.result (rename r) (state.resolve value location) :=
  Renaming.bind (Expression.resolve_rename state.scopes location value state.definitions)
    fun _ => rfl

variable (hr : Function.Injective r)
include hr

theorem declare_rename (state : Resolved) (definition : Definition) :
    (state.rename r).declare (definition.rename r) =
      r.result (rename r) (state.declare definition) :=
  Renaming.bind (Scopes.declare_rename hr state.scopes state.definitions definition) fun _ => rfl

theorem declareVariable_rename (state : Resolved) (kind : ResourceKind → DefinitionKind)
    (decl : VariableDecl) :
    (state.rename r).declareVariable kind (decl.rename r) =
      r.result (rename r) (state.declareVariable kind decl) := by
  have hdeclare (state : Resolved) := declare_rename hr state
    ⟨decl.uid, decl.name, kind decl.resource, decl.location⟩
  simp only [declareVariable, VariableDecl.rename]
  cases decl.value with
  | none => exact hdeclare state
  | some value => exact Renaming.bind (resolve_rename state value decl.location) hdeclare

theorem declareVariables_rename (kind : ResourceKind → DefinitionKind) (decls : List VariableDecl)
    (state : Resolved) :
    (state.rename r).declareVariables kind (decls.map (VariableDecl.rename r)) =
      r.result (rename r) (state.declareVariables kind decls) := by
  induction decls generalizing state with
  | nil => rfl
  | cons decl rest ih => exact Renaming.bind (declareVariable_rename hr state kind decl) ih

theorem declareBindings_rename (bindings : List VariableDecl) (state : Resolved) :
    (state.rename r).declareBindings (bindings.map (VariableDecl.rename r)) =
      r.result (rename r) (state.declareBindings bindings) := by
  induction bindings generalizing state with
  | nil => rfl
  | cons decl rest ih =>
    have hvalue : (decl.rename r).value.isNone = decl.value.isNone := by
      simp [VariableDecl.rename]
    simp only [List.map_cons, declareBindings, hvalue]
    split
    · rfl
    · exact Renaming.bind (declareVariable_rename hr state (fun _ => .bound) decl) ih

theorem declareConstants_rename (decls : List ConstantDecl) (state : Resolved) :
    (state.rename r).declareConstants (decls.map (ConstantDecl.rename r)) =
      r.result (rename r) (state.declareConstants decls) := by
  induction decls generalizing state with
  | nil => rfl
  | cons decl rest ih =>
    have hdeclare (state : Resolved) :
        ((state.rename r).declare ⟨r decl.uid, decl.name, .constant, .unknown⟩ >>=
            fun state => state.declareConstants (rest.map (ConstantDecl.rename r))) =
          r.result (rename r) (state.declare ⟨decl.uid, decl.name, .constant, .unknown⟩ >>=
            fun state => state.declareConstants rest) :=
      Renaming.bind (declare_rename hr state ⟨decl.uid, decl.name, .constant, .unknown⟩) ih
    simp only [List.map_cons, declareConstants, ConstantDecl.rename]
    cases decl.value with
    | none => exact hdeclare state
    | some value => exact Renaming.bind (resolve_rename state value .unknown) hdeclare

end Resolved

/-! ## Statements -/

section Statements

variable {r : Renaming}

theorem AssignmentPair.resolveList_rename (scopes : Scopes) (location : TextLocation)
    (pairs : List AssignmentPair) (definitions : Definitions) :
    resolveList (scopes.rename r) location (pairs.map (rename r)) (definitions.rename r) =
      r.result (Definitions.rename r) (resolveList scopes location pairs definitions) := by
  induction pairs generalizing definitions with
  | nil => rfl
  | cons pair rest ih =>
    have hroot : (pair.rename r).lhs.assignmentRoot?.isNone = pair.lhs.assignmentRoot?.isNone := by
      simp [rename, Expression.assignmentRoot?_rename]
    simp only [List.map_cons, resolveList, hroot]
    split
    · rfl
    · refine Renaming.bind (Expression.resolve_rename scopes location pair.lhs definitions) ?_
      intro first
      exact Renaming.bind (Expression.resolve_rename scopes location pair.rhs first) ih

namespace Statement

mutual

theorem resolve_rename (hr : Function.Injective r) (arities : Arities) (scopes : Scopes)
    (statement : Statement) (definitions : Definitions) :
    (statement.rename r).resolve arities (scopes.rename r) (definitions.rename r) =
      r.result (Definitions.rename r) (statement.resolve arities scopes definitions) := by
  cases statement with
  | labeled mark label body => exact listResolve_rename hr arities scopes body definitions
  | whileDo mark condition body =>
    exact Renaming.bind (Expression.resolve_rename scopes mark.location condition definitions)
      (listResolve_rename hr arities scopes body)
  | ifElse mark condition yes no =>
    refine Renaming.bind (Expression.resolve_rename scopes mark.location condition definitions) ?_
    intro first
    exact Renaming.bind (listResolve_rename hr arities scopes yes first)
      (listResolve_rename hr arities scopes no)
  | either mark cases =>
    cases cases with
    | nil => rfl
    | cons body rest => exact casesResolve_rename hr arities scopes (body :: rest) definitions
  | assign mark pairs =>
    exact AssignmentPair.resolveList_rename scopes mark.location pairs definitions
  | call mark target arguments =>
    simp only [rename, resolve, List.length_map]
    cases arities.find? target with
    | none => rfl
    | some arity =>
      simp only
      split
      · rfl
      · rw [← Expression.listRename_eq_map]
        exact Expression.listResolve_rename scopes mark.location arguments definitions
  | withDo mark bindings body =>
    refine Renaming.bind
      (Resolved.declareBindings_rename hr bindings ⟨scopes.enter, definitions⟩) fun inside => ?_
    exact listResolve_rename hr arities inside.scopes body inside.definitions
  | print mark value => exact Expression.resolve_rename scopes mark.location value definitions
  | assert mark value => exact Expression.resolve_rename scopes mark.location value definitions
  | await mark value => exact Expression.resolve_rename scopes mark.location value definitions
  | _ => rfl

theorem listResolve_rename (hr : Function.Injective r) (arities : Arities) (scopes : Scopes)
    (statements : List Statement) (definitions : Definitions) :
    listResolve arities (scopes.rename r) (listRename r statements) (definitions.rename r) =
      r.result (Definitions.rename r) (listResolve arities scopes statements definitions) := by
  cases statements with
  | nil => rfl
  | cons statement rest =>
    exact Renaming.bind (resolve_rename hr arities scopes statement definitions)
      (listResolve_rename hr arities scopes rest)

theorem casesResolve_rename (hr : Function.Injective r) (arities : Arities) (scopes : Scopes)
    (cases : List (List Statement)) (definitions : Definitions) :
    casesResolve arities (scopes.rename r) (casesRename r cases) (definitions.rename r) =
      r.result (Definitions.rename r) (casesResolve arities scopes cases definitions) := by
  cases cases with
  | nil => rfl
  | cons body rest =>
    exact Renaming.bind (listResolve_rename hr arities scopes body definitions)
      (casesResolve_rename hr arities scopes rest)

end

end Statement

end Statements

/-! ## Bodies and algorithms -/

section Bodies

variable {r : Renaming} (hr : Function.Injective r)
include hr

theorem resolveBody_rename (arities : Arities) (state : Resolved) (body : List Statement) :
    resolveBody arities (state.rename r) (Statement.listRename r body) =
      r.result (Definitions.rename r) (resolveBody arities state body) := by
  exact Renaming.bind (Statement.checkLabels_rename body) fun _ =>
    Statement.listResolve_rename hr arities state.scopes body state.definitions

theorem Procedure.resolve_rename (arities : Arities) (scopes : Scopes) (procedure : Procedure)
    (definitions : Definitions) :
    (procedure.rename r).resolve arities (scopes.rename r) (definitions.rename r) =
      r.result (Definitions.rename r) (procedure.resolve arities scopes definitions) := by
  refine Renaming.bind (Resolved.declareVariables_rename hr .parameter procedure.params
    ⟨scopes.enter, definitions⟩) fun state => ?_
  exact Renaming.bind (Resolved.declareVariables_rename hr .localVariable procedure.locals state)
    fun state => resolveBody_rename hr arities state procedure.body

omit hr in
theorem ProcessSelf.resolve_rename (scopes : Scopes) (value : ProcessSelf)
    (definitions : Definitions) :
    (value.rename r).resolve (scopes.rename r) (definitions.rename r) =
      r.result (Definitions.rename r) (value.resolve scopes definitions) := by
  cases value with
  | single value => exact Expression.resolve_rename scopes .unknown value definitions
  | range low high =>
    exact Renaming.bind (Expression.resolve_rename scopes .unknown low definitions)
      (Expression.resolve_rename scopes .unknown high)

theorem Process.resolve_rename (arities : Arities) (scopes : Scopes) (process : Process)
    (definitions : Definitions) :
    (process.rename r).resolve arities (scopes.rename r) (definitions.rename r) =
      r.result (Definitions.rename r) (process.resolve arities scopes definitions) := by
  refine Renaming.bind (ProcessSelf.resolve_rename scopes process.selfValue definitions) ?_
  intro definitions
  refine Renaming.bind (Resolved.declare_rename hr ⟨scopes.enter, definitions⟩
    ⟨process.selfDecl, "self", .processSelf, .unknown⟩) fun state => ?_
  exact Renaming.bind (Resolved.declareVariables_rename hr .localVariable process.locals state)
    fun state => resolveBody_rename hr arities state process.body

theorem Procedure.resolveList_rename (arities : Arities) (scopes : Scopes)
    (procedures : List Procedure) (definitions : Definitions) :
    resolveList arities (scopes.rename r) (procedures.map (rename r)) (definitions.rename r) =
      r.result (Definitions.rename r) (resolveList arities scopes procedures definitions) := by
  induction procedures generalizing definitions with
  | nil => rfl
  | cons procedure rest ih =>
    exact Renaming.bind (Procedure.resolve_rename hr arities scopes procedure definitions) ih

theorem Process.resolveList_rename (arities : Arities) (scopes : Scopes)
    (processes : List Process) (definitions : Definitions) :
    resolveList arities (scopes.rename r) (processes.map (rename r)) (definitions.rename r) =
      r.result (Definitions.rename r) (resolveList arities scopes processes definitions) := by
  induction processes generalizing definitions with
  | nil => rfl
  | cons process rest ih =>
    exact Renaming.bind (Process.resolve_rename hr arities scopes process definitions) ih

namespace Algorithm

theorem checkUids_rename (algorithm : Algorithm) :
    (algorithm.rename r).checkUids = r.result id algorithm.checkUids := by
  have hrepeated := Uid.firstRepeated?_map hr [] algorithm.uids
  rw [List.map_nil, ← uids_rename] at hrepeated
  unfold checkUids
  rw [hrepeated]
  cases Uid.firstRepeated? [] algorithm.uids <;> rfl

omit hr in
theorem arities_rename (algorithm : Algorithm) :
    (algorithm.rename r).arities = algorithm.arities := by
  simp [arities, rename, Procedure.rename]

/-- A renamed algorithm has the renamed definitions, or breaks the same rule. -/
theorem resolve_rename (algorithm : Algorithm) :
    (algorithm.rename r).resolve = r.result (Definitions.rename r) algorithm.resolve := by
  refine Renaming.bind (checkUids_rename hr algorithm) fun _ => ?_
  refine Renaming.bind (Resolved.declareConstants_rename hr algorithm.constants
    ⟨Scopes.empty, Definitions.empty⟩) fun state => ?_
  refine Renaming.bind (Resolved.declareVariables_rename hr .global algorithm.globals state) ?_
  intro state
  rw [arities_rename]
  refine Renaming.bind (Procedure.resolveList_rename hr algorithm.arities state.scopes
    algorithm.procedures state.definitions) fun definitions => ?_
  exact Process.resolveList_rename hr algorithm.arities state.scopes algorithm.processes definitions

end Algorithm

end Bodies

end PlusCalGo
