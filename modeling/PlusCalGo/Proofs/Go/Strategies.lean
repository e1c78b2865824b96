import PlusCalGo.Proofs.Renaming.Bodies

/-!
# Strategies change their calls alone

A body is lowered under two strategies, such as mutexes and the state service. Where sections are
opened, closed and given up, which problems there are and all other code do not depend on the
strategy.
-/

namespace PlusCalGo.Go

/-- Two strategies refuse a body for the same problem, or both lower it: then the same group is open
at the end under the same label, the same imports are needed, and the code of both is the same
marked code, with the calls of the one and of the other strategy in place of the marks. -/
theorem lowerBody_strategies (definitions : Definitions) (groups : LockGroups) (owner : Uid)
    (imports : Imports) (body : List Statement) (first second : Strategy) :
    match lowerBody definitions body (.start groups first owner imports),
      lowerBody definitions body (.start groups second owner imports) with
    | .ok _ state, .ok _ other =>
      other.emission.tracker.openGroup = state.emission.tracker.openGroup ∧
        other.emission.tracker.label = state.emission.tracker.label ∧
        other.imports = state.imports ∧
        ∃ marked : List MarkedCode,
          state.emission.builder.current = first.calls marked ∧
            other.emission.builder.current = second.calls marked
    | .error problem _, .error other _ => other = problem
    | _, _ => False := by
  -- Both runs lower the same tree, so no uid is renamed.
  let v : Variation := ⟨id, first, second⟩
  have hsteps : v.Steps v.Lowerings Eq (lowerBody definitions body)
      (lowerBody definitions body) := by
    have hsteps := v.steps_body Function.injective_id definitions body
    rw [Definitions.rename_id, Statement.listRename_id] at hsteps
    exact hsteps
  have hstart : v.Lowerings (.start groups first owner imports)
      (.start groups second owner imports) :=
    v.lowerings_start (fun _ => rfl) owner imports
  have hresults := hsteps _ _ hstart
  generalize lowerBody definitions body (.start groups first owner imports) = result at hresults ⊢
  generalize lowerBody definitions body (.start groups second owner imports) = other at hresults ⊢
  cases hresults with
  | @ok _ _ state state' _ hstate =>
    have hlabel : state'.emission.tracker.label = state.emission.tracker.label := by
      rw [hstate.emission.tracker.label]
      cases state.emission.tracker.label <;> rfl
    exact ⟨hstate.emission.tracker.openGroup, hlabel, hstate.imports,
      hstate.emission.builder.current⟩
  | error problem state state' => exact problem.rename_id

end PlusCalGo.Go
