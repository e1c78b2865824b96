import PlusCalGo.Project.Build
import PlusCalGo.Proofs.Renaming.Bodies
import PlusCalGo.Proofs.Renaming.Groups

/-!
# Compiling renamed algorithms

Uids carry identity only. Whichever uids stand in an algorithm, compiling it stops at the same stage
with the same problem, or gives the same program, lock groups, report and warnings.
-/

namespace PlusCalGo

/-! ## Functions -/

namespace Go

variable {r : Renaming}

/-- Under one strategy the code of both lowerings is the same. -/
theorem Variation.Codes.eq {v : Variation} {code other : List SectionCode}
    (h : v.Codes code other) (hsame : v.second = v.first) : other = code := by
  obtain ⟨marked, rfl, rfl⟩ := h
  rw [hsame]

theorem Variation.Builders.finish {v : Variation} {builder other : Builder SectionCall}
    (h : v.Builders builder other) (hsame : v.second = v.first) :
    other.finish = v.rename.result id builder.finish := by
  have hlength := h.enclosing.length_eq
  have hempty : other.enclosing = [] ↔ builder.enclosing = [] := by
    rw [← List.length_eq_zero_iff, ← hlength, List.length_eq_zero_iff]
  simp only [Builder.finish, Builder.missingTarget?, ne_eq, hempty, h.current.eq hsame, h.labels,
    h.targets, ← hlength]
  split
  · rfl
  · split <;> rfl

/-- What functions of renamed algorithms have in common. -/
structure FunctionContext.Matches (r : Renaming) (context other : FunctionContext) : Prop where
  definitions : other.definitions = context.definitions.rename r
  groupOf : ∀ label, other.groups.groupOf? (r label) = context.groups.groupOf? label
  strategy : other.strategy = context.strategy
  copies : other.copies = context.copies.map (VariableDecl.rename r)

namespace FunctionContext

/-- The body that lowering leaves, if it goes through. -/
theorem body_eq (context : FunctionContext) (imports : Imports) (owner : Uid)
    (locals : List VariableDecl) (body : List Statement) :
    context.body imports owner locals body =
      match lowerFunction context.definitions context.copies locals body
          (.start context.groups context.strategy owner imports) with
      | .ok _ state => do
        let finished ← state.emission.builder.finish
        pure (finished, state.imports)
      | .error problem _ => .error problem := by
  unfold FunctionContext.body Lowering.start
  dsimp only
  split <;> rename_i h <;> rw [h]

variable {context other : FunctionContext} (hr : Function.Injective r)
  (h : context.Matches r other)
include hr h

theorem body_rename (imports : Imports) (owner : Uid) (locals : List VariableDecl)
    (body : List Statement) :
    other.body imports (r owner) (locals.map (VariableDecl.rename r))
        (Statement.listRename r body) =
      r.result id (context.body imports owner locals body) := by
  let v : Variation := ⟨r, context.strategy, other.strategy⟩
  have hstart := v.lowerings_start h.groupOf owner imports
  have hresults := v.steps_function hr context.definitions context.copies locals body _ _ hstart
  rw [← h.definitions, ← h.copies] at hresults
  rw [body_eq, body_eq]
  generalize lowerFunction context.definitions context.copies locals body _ = result
    at hresults ⊢
  generalize lowerFunction other.definitions other.copies _ _ _ = otherResult at hresults ⊢
  cases hresults with
  | ok _ hstate =>
    refine Renaming.bind (hstate.emission.builder.finish h.strategy) fun finished => ?_
    exact congrArg (fun imports => Except.ok (finished, imports)) hstate.imports
  | error problem state state' => rfl

theorem procedures_rename (imports : Imports) (procedures : List Procedure) :
    other.procedures imports (procedures.map (Procedure.rename r)) =
      r.result id (context.procedures imports procedures) := by
  induction procedures generalizing imports with
  | nil => rfl
  | cons procedure rest ih =>
    refine Renaming.bind (body_rename hr h imports procedure.uid procedure.locals procedure.body)
      fun (body, imports) => ?_
    refine Renaming.bind (ih imports) fun (functions, imports) => ?_
    simp [Procedure.rename, VariableDecl.rename, Renaming.result, pure, Except.pure]

theorem processes_rename (imports : Imports) (processes : List Process) :
    other.processes imports (processes.map (Process.rename r)) =
      r.result id (context.processes imports processes) := by
  induction processes generalizing imports with
  | nil => rfl
  | cons process rest ih =>
    refine Renaming.bind (body_rename hr h imports process.uid process.locals process.body)
      fun (body, imports) => ?_
    exact Renaming.bind (ih imports) fun (functions, imports) => rfl

end FunctionContext

end Go

/-! ## Programs -/

/-- A renamed algorithm has the same program under mutexes, or the same problem. -/
theorem Algorithm.toGo_rename {r : Renaming} (hr : Function.Injective r) (algorithm : Algorithm)
    (definitions : Definitions) {groups other : LockGroups} (hgroups : groups.Matches r other)
    {settings : Go.Settings} (hlocal : settings.locking = .inProcess) :
    (algorithm.rename r).toGo (definitions.rename r) other settings =
      r.result id (algorithm.toGo definitions groups settings) := by
  obtain ⟨package, locking, endpoints, timeout⟩ := settings
  cases hlocal
  have hcontext (strategy : Go.Strategy) :
      Go.FunctionContext.Matches r ⟨definitions, groups, strategy, []⟩
        ⟨definitions.rename r, other, strategy, []⟩ :=
    ⟨rfl, hgroups.groupOf? hr, rfl, rfl⟩
  have hstrategy : Go.Strategy.ofMode .inProcess other (definitions.rename r) =
      r.result id (Go.Strategy.ofMode .inProcess groups definitions) := rfl
  refine Renaming.bind hstrategy fun strategy => ?_
  refine Renaming.bind (Go.FunctionContext.procedures_rename hr (hcontext strategy) .none
    algorithm.procedures) fun (procedures, imports) => ?_
  refine Renaming.bind (Go.FunctionContext.processes_rename hr (hcontext strategy) imports
    algorithm.processes) fun (processes, imports) => ?_
  refine Renaming.bind (Renaming.mapM (Go.constantOf_rename hr definitions) algorithm.constants)
    fun constants => ?_
  refine Renaming.bind (Renaming.mapM (Go.declarationOf_rename hr definitions) algorithm.globals)
    fun globals => ?_
  have hlocks : (algorithm.rename r).lockHome (definitions.rename r) other
        ⟨package, .inProcess, endpoints, timeout⟩ =
      r.result id (algorithm.lockHome definitions groups
        ⟨package, .inProcess, endpoints, timeout⟩) := by
    rw [lockHome, lockHome, hgroups.count]
    rfl
  refine Renaming.bind hlocks fun locks => ?_
  exact Renaming.bind (Renaming.mapM (Go.launchOf_rename hr definitions) algorithm.processes)
    fun launches => rfl

/-! ## Stages -/

/-- What compiling an algorithm goes through. -/
inductive Stage where
  | resolution
  | inference
  | generation
deriving DecidableEq

/-- Compiles an algorithm; a problem comes with the stage that found it. -/
def Algorithm.compile (algorithm : Algorithm) (settings : Go.Settings) :
    Except (Stage × Diagnostic) (Atomicity × Go.Program) := do
  let definitions ← algorithm.resolve.mapError (Stage.resolution, ·)
  let atomicity ← (algorithm.inferAtomicity definitions).mapError (Stage.inference, ·)
  let program ← (algorithm.toGo definitions atomicity.groups settings).mapError
    (Stage.generation, ·)
  pure (atomicity, program)

/-- A text is parsed, and then its algorithm is compiled. -/
theorem Config.compileText_eq (config : Config) (text : String) :
    config.compileText text = (do
      let algorithm ← (Algorithm.parse text).mapError Diagnostic.ofFault
      let (atomicity, program) ← (algorithm.compile config.settings).mapError (·.2)
      pure ⟨program, atomicity.report, atomicity.warnings⟩) := by
  unfold compileText Algorithm.compile
  congr 1
  funext algorithm
  cases algorithm.resolve with
  | error problem => rfl
  | ok definitions =>
    cases hinfer : algorithm.inferAtomicity definitions with
    | error problem => simp [Except.mapError, bind, Except.bind, hinfer]
    | ok atomicity =>
      cases htoGo : algorithm.toGo definitions atomicity.groups config.settings <;>
        simp [Except.mapError, bind, Except.bind, pure, Except.pure, hinfer, htoGo]

/-- How compiling an algorithm and its renamed copy end: at the same stage with the same problem, or
with the same text, the same lock group for every label, the same report up to the order of names,
and the same warnings. -/
inductive Recompiled (r : Renaming) : Except (Stage × Diagnostic) (Atomicity × Go.Program) →
    Except (Stage × Diagnostic) (Atomicity × Go.Program) → Prop where
  | refused (stage : Stage) {problem other : Diagnostic} (hproblem : other = problem.rename r)
      (hkind : other.problem.kind = problem.problem.kind) :
    Recompiled r (.error (stage, problem)) (.error (stage, other))
  | accepted {atomicity other : Atomicity} {program otherProgram : Go.Program}
      (hrender : otherProgram.render = program.render)
      (hgroups : ∀ label, other.groups.groupOf? (r label) = atomicity.groups.groupOf? label)
      (hreport : atomicity.report.Matches other.report)
      (hwarnings : other.warnings = atomicity.warnings) :
    Recompiled r (.ok (atomicity, program)) (.ok (other, otherProgram))

theorem Recompiled.of_rename {r : Renaming} (stage : Stage) (problem : Diagnostic) :
    Recompiled r (.error (stage, problem)) (.error (stage, problem.rename r)) :=
  .refused stage rfl (problem.problem.kind_rename r)

/-- Under mutexes uids do not matter. -/
theorem Algorithm.compile_rename {r : Renaming} (hr : Function.Injective r)
    (algorithm : Algorithm) {settings : Go.Settings} (hlocal : settings.locking = .inProcess) :
    Recompiled r (algorithm.compile settings) ((algorithm.rename r).compile settings) := by
  have hresolve := resolve_rename hr algorithm
  unfold compile
  cases hdefinitions : algorithm.resolve with
  | error problem =>
    rw [hdefinitions] at hresolve
    rw [hresolve]
    exact .of_rename .resolution problem
  | ok definitions =>
    rw [hdefinitions] at hresolve
    rw [hresolve]
    have hinfer := inferAtomicity_rename hr hdefinitions
    simp only [Renaming.result, Except.mapError, bind, Except.bind]
    cases hatomicity : algorithm.inferAtomicity definitions with
    | error problem =>
      rw [hatomicity] at hinfer
      rw [hinfer]
      exact .of_rename .inference problem
    | ok atomicity =>
      rw [hatomicity] at hinfer
      obtain ⟨other, hother, hmatches⟩ := hinfer
      rw [hother]
      have htoGo := toGo_rename hr algorithm definitions hmatches.groups hlocal
      simp only [htoGo]
      cases algorithm.toGo definitions atomicity.groups settings with
      | error problem => exact .of_rename .generation problem
      | ok program =>
        exact .accepted rfl (hmatches.groups.groupOf? hr) hmatches.report hmatches.warnings

/-! ## Uids in the other order

The two variables of the step change places in the sets of the step, so the report names them the
other way around.
-/

namespace Algorithm

private def crossing : Algorithm :=
  let mark (number : UInt32) : Mark := ⟨⟨number⟩, .unknown⟩
  ⟨"C", [], [⟨⟨1⟩, "x", none, .plain, .unknown⟩, ⟨⟨2⟩, "y", none, .plain, .unknown⟩], [],
    [⟨⟨3⟩, "P", ⟨4⟩, .single (.number ⟨5⟩ 1), [],
      [.labeled (mark 10) ⟨⟨11⟩, "a"⟩
        [.assign (mark 12) [⟨.identifier ⟨13⟩ "x", .identifier ⟨14⟩ "y"⟩,
          ⟨.identifier ⟨15⟩ "y", .identifier ⟨16⟩ "x"⟩]]]⟩]⟩

private def mirror : Renaming := fun uid => ⟨100 - uid.number⟩

private theorem mirror_injective : Function.Injective mirror := by
  intro a b h
  cases a
  cases b
  simpa [mirror] using h

theorem compile_rename_crossing :
    Function.Injective mirror ∧ Go.Settings.default.locking = .inProcess ∧
      ∃ atomicity program other otherProgram,
        crossing.compile .default = .ok (atomicity, program) ∧
          (crossing.rename mirror).compile .default = .ok (other, otherProgram) ∧
          otherProgram.render = program.render ∧
          atomicity.report.groups.map (·.reads) = [["x", "y"]] ∧
          other.report.groups.map (·.reads) = [["y", "x"]] := by
  have hreads : (crossing.compile .default).map (·.1.report.groups.map (·.reads)) =
      .ok [["x", "y"]] := by cbv
  have hotherReads : ((crossing.rename mirror).compile .default).map
      (·.1.report.groups.map (·.reads)) = .ok [["y", "x"]] := by cbv
  have hsame := compile_rename mirror_injective crossing
    (rfl : Go.Settings.default.locking = .inProcess)
  refine ⟨mirror_injective, rfl, ?_⟩
  generalize crossing.compile .default = result at hreads hsame ⊢
  generalize (crossing.rename mirror).compile .default = other at hotherReads hsame ⊢
  cases hsame with
  | refused stage hproblem hkind => cases hreads
  | accepted hrender hgroups hreport hwarnings =>
    exact ⟨_, _, _, _, rfl, rfl, hrender, Except.ok.inj hreads, Except.ok.inj hotherReads⟩

end Algorithm

end PlusCalGo
