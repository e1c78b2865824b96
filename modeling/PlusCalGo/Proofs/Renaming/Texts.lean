import PlusCalGo.Go.Program
import PlusCalGo.Proofs.Renaming.Resolution

/-!
# Texts of renamed expressions

Identifiers are printed by their names, so texts do not depend on uids, and neither do the
declarations and launches that are made of them.
-/

namespace PlusCalGo

variable {r : Renaming} (hr : Function.Injective r)

namespace Expression

include hr

theorem rootResource_rename (definitions : Definitions) (expression : Expression) :
    (expression.rename r).rootResource (definitions.rename r) =
      r.result id (expression.rootResource definitions) := by
  induction expression using rootResource.induct with
  | case1 uid name =>
    exact Renaming.bind (Definitions.resolve_rename hr definitions uid) fun _ => rfl
  | case2 uid function params ih => exact ih
  | case3 expression hidentifier hindex =>
    cases expression with
    | identifier uid name => exact absurd rfl (hidentifier uid name)
    | index uid function params => exact absurd rfl (hindex uid function params)
    | _ => rfl

omit hr

mutual

theorem toGo_rename (hr : Function.Injective r) (definitions : Definitions)
    (expression : Expression) :
    (expression.rename r).toGo (definitions.rename r) =
      r.result id (expression.toGo definitions) := by
  cases expression with
  | index uid function params =>
    refine Renaming.bind (rootResource_rename hr definitions function) fun resource => ?_
    refine Renaming.bind (toGo_rename hr definitions function) fun text => ?_
    exact Renaming.bind (listToGo_rename hr definitions params) fun _ => rfl
  | binary uid op lhs rhs =>
    refine Renaming.bind (toGo_rename hr definitions lhs) fun first => ?_
    exact Renaming.bind (toGo_rename hr definitions rhs) fun _ => rfl
  | unary uid op operand =>
    exact Renaming.bind (toGo_rename hr definitions operand) fun _ => rfl
  | tuple uid elements =>
    exact Renaming.bind (listToGo_rename hr definitions elements) fun _ => rfl
  | ifElse uid condition yes no =>
    refine Renaming.bind (toGo_rename hr definitions condition) fun first => ?_
    refine Renaming.bind (toGo_rename hr definitions yes) fun second => ?_
    exact Renaming.bind (toGo_rename hr definitions no) fun _ => rfl
  | apply uid name args =>
    exact Renaming.bind (listToGo_rename hr definitions args) fun _ => rfl
  | _ => rfl

theorem listToGo_rename (hr : Function.Injective r) (definitions : Definitions)
    (expressions : List Expression) :
    listToGo (definitions.rename r) (listRename r expressions) =
      r.result id (listToGo definitions expressions) := by
  cases expressions with
  | nil => rfl
  | cons expression rest =>
    refine Renaming.bind (toGo_rename hr definitions expression) fun text => ?_
    exact Renaming.bind (listToGo_rename hr definitions rest) fun _ => rfl

end

end Expression

namespace Go

include hr

theorem declarationOf_rename (definitions : Definitions) (decl : VariableDecl) :
    declarationOf (definitions.rename r) (decl.rename r) =
      r.result id (declarationOf definitions decl) := by
  simp only [declarationOf, VariableDecl.rename]
  cases decl.value with
  | none => rfl
  | some value => exact Renaming.bind (Expression.toGo_rename hr definitions value) fun _ => rfl

theorem constantOf_rename (definitions : Definitions) (decl : ConstantDecl) :
    constantOf (definitions.rename r) (decl.rename r) =
      r.result id (constantOf definitions decl) := by
  simp only [constantOf, ConstantDecl.rename]
  cases decl.value with
  | none => rfl
  | some value => exact Renaming.bind (Expression.toGo_rename hr definitions value) fun _ => rfl

theorem launchOf_rename (definitions : Definitions) (process : Process) :
    launchOf (definitions.rename r) (process.rename r) =
      r.result id (launchOf definitions process) := by
  simp only [launchOf, Process.rename]
  cases process.selfValue with
  | single value => exact Renaming.bind (Expression.toGo_rename hr definitions value) fun _ => rfl
  | range low high =>
    refine Renaming.bind (Expression.toGo_rename hr definitions low) fun first => ?_
    exact Renaming.bind (Expression.toGo_rename hr definitions high) fun _ => rfl

end Go

/-- Items are renamed one after the other. -/
theorem Renaming.mapM {α β : Type} {rename : α → α} {one one' : α → Except Diagnostic β}
    (h : ∀ item, one' (rename item) = r.result id (one item)) (items : List α) :
    (items.map rename).mapM one' = r.result id (items.mapM one) := by
  induction items with
  | nil => rfl
  | cons item rest ih =>
    rw [List.map_cons, List.mapM_cons, List.mapM_cons]
    exact Renaming.bind (h item) fun _ => Renaming.bind ih fun _ => rfl

end PlusCalGo
