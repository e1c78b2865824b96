import PlusCalGo.Proofs.Go.Functions
import PlusCalGo.Proofs.Go.StepLocks
import PlusCalGo.Proofs.Locking.Groups

/-!
# Guarded steps

Where a function evaluates something, it holds exactly the lock group of the innermost label. Every
global variable that some label writes is therefore read and written under the one group of all
labels that touch it.
-/

namespace PlusCalGo

namespace Algorithm

variable {algorithm : Algorithm} {definitions : Definitions} {atomicity : Atomicity}

/-- The identifier stands in an own statement of the label. -/
def Occurs (algorithm : Algorithm) (label : Label) (identifier : Uid) : Prop :=
  ∃ occurrence ∈ algorithm.occurrences,
    occurrence.label? = some label.uid ∧ occurrence.uid = identifier

/-- The group is held that all labels have that touch the variable, if one of them writes it. -/
def Guarded (algorithm : Algorithm) (groups : LockGroups) (held : Option LockGroup)
    (global : Uid) : Prop :=
  ∀ writer, algorithm.Touches writer true global → ∃ group, held = some group ∧
    ∀ label isWrite, algorithm.Touches label isWrite global → groups.groupOf? label = some group

/-- A label that touches a variable has the group of the variable. -/
theorem guarded_of_touches (hresolve : algorithm.resolve = .ok definitions)
    (hinfer : algorithm.inferAtomicity definitions = .ok atomicity) {label : Uid} {isWrite : Bool}
    {global : Uid} (htouches : algorithm.Touches label isWrite global) :
    algorithm.Guarded atomicity.groups (atomicity.groups.groupOf? label) global := by
  obtain ⟨labels, hnodup, hpartition, hsame⟩ := partition_of_inferAtomicity hresolve hinfer
  obtain ⟨hsome, hchained⟩ := LockGroups.partition_spec hnodup hpartition
  rw [hsame] at hsome hchained
  have hgroup : ∀ other isWrite, algorithm.Touches other isWrite global →
      ∃ group, atomicity.groups.groupOf? other = some group := by
    intro other isWrite hother
    exact Option.isSome_iff_exists.1 ((hsome other).2 ⟨isWrite, global, hother⟩)
  intro writer hwriter
  obtain ⟨group, hwriterGroup⟩ := hgroup writer true hwriter
  have hall : ∀ other isWrite, algorithm.Touches other isWrite global →
      atomicity.groups.groupOf? other = some group := by
    intro other isWrite hother
    obtain ⟨otherGroup, hotherGroup⟩ := hgroup other isWrite hother
    have hconflict : Conflicting algorithm.Touches writer other :=
      ⟨isWrite, global, .inl ⟨hwriter, hother⟩⟩
    rw [hotherGroup, (hchained writer other group otherGroup hwriterGroup hotherGroup).2
      (.single hconflict)]
  exact ⟨group, hall label isWrite htouches, hall⟩

/-- Every source has well-placed labels and complete accesses, which are occurrences in the
algorithm. -/
theorem occurs_of_source (hresolve : algorithm.resolve = .ok definitions)
    (hinfer : algorithm.inferAtomicity definitions = .ok atomicity) {source : Source}
    (hsource : source ∈ algorithm.sources) :
    Statement.checkLabels source.body = .ok () ∧
      (Statement.bodyAccesses source.body).All (Access.Occurs algorithm.Occurs) := by
  obtain ⟨hprocedures, hprocesses, _⟩ := grows_of_resolve hresolve
  obtain ⟨hproblems, _⟩ := recorded_of_inferAtomicity hresolve hinfer
  have hbody : Statement.checkLabels source.body = .ok () ∧
      (source.name, source.body) ∈ algorithm.bodies ∧ ∃ naming, ∀ occurrence ∈
        Statement.listOccurrences none naming source.body, occurrence ∈ algorithm.occurrences := by
    rcases List.mem_append.1 hsource with hsource | hsource
    · obtain ⟨procedure, hmem, rfl⟩ := List.mem_map.1 hsource
      refine ⟨hprocedures procedure hmem,
        List.mem_append_right _ (List.mem_map.2 ⟨procedure, hmem, rfl⟩),
        procedure.naming algorithm.naming, ?_⟩
      intro occurrence hoccurrence
      exact List.mem_append_left _ (List.mem_flatMap.2 ⟨procedure, hmem, hoccurrence⟩)
    · obtain ⟨process, hmem, rfl⟩ := List.mem_map.1 hsource
      refine ⟨hprocesses process hmem,
        List.mem_append_left _ (List.mem_map.2 ⟨process, hmem, rfl⟩),
        process.naming algorithm.naming, ?_⟩
      intro occurrence hoccurrence
      exact List.mem_append_right _ (List.mem_flatMap.2 ⟨process, hmem, hoccurrence⟩)
  obtain ⟨hlabels, hmem, naming, hoccurrences⟩ := hbody
  have hproblem := hproblems _ hmem
  refine ⟨hlabels, hproblem, ?_⟩
  intro access haccess identifier hidentifier
  have huse : (some access.label.uid, access.isWrite, identifier) ∈
      (Statement.bodyAccesses source.body).accesses.flatMap Access.uses :=
    List.mem_flatMap.2 ⟨access, haccess, Access.mem_uses.2 ⟨rfl, rfl, hidentifier⟩⟩
  rw [Statement.bodyAccesses, Statement.tells_listAccesses none naming source.body hproblem] at huse
  obtain ⟨occurrence, hoccurrence, huse⟩ := List.mem_map.1 huse
  simp only [Occurrence.use, Prod.mk.injEq] at huse
  exact ⟨occurrence, hoccurrences occurrence hoccurrence, huse.1, huse.2.2⟩

end Algorithm

namespace Go

/-- Wherever a path evaluates something, the group of the innermost label is held, and guards the
global variables that are touched. -/
def Guards (algorithm : Algorithm) (groups : LockGroups) (targets : List String)
    (code : NotedCode) : Prop :=
  ∀ notes point, Path (· ∈ targets) code notes point → ∀ remark rest expressions,
    point.code = .leaf (.remark remark) :: rest → remark.subject = .evaluates expressions →
      ∃ label, remark.label? = some label ∧
        replay none (callsOf notes) = some (groups.groupOf? label.uid) ∧
        ∀ expression ∈ expressions, ∀ identifier ∈ expression.identifiers,
          ∃ occurrence ∈ algorithm.occurrences, occurrence.label? = some label.uid ∧
            occurrence.uid = identifier ∧ ∀ global, occurrence.global? = some global →
              algorithm.Guarded groups (groups.groupOf? label.uid) global

section Functions

variable {context : FunctionContext} {imports : Imports} {owner : Uid}
  {locals : List VariableDecl} {body : List Statement} {code : NotedCode} {after : Progress}
  {occurs : Label → Uid → Prop}

theorem FunctionContext.noted_protected
    (h : context.noted imports owner locals body = .ok (code, after))
    (hsteps : Statement.Throughout Statement.Stepwise body)
    (haccesses : (Statement.bodyAccesses body).All (Access.Occurs occurs)) :
    ∀ note ∈ Code.listLeaves code, note.Protected context.groups occurs := by
  obtain ⟨front, inner, last, hfront, hinner, _, rfl⟩ := noted_ok h
  have hstart := (context.start_ready imports owner fun _ => True).1
  have hbody := protected_statements body hinner hstart hsteps.1 hsteps.2 haccesses
    fun _ _ _ _ hlabel => nomatch hlabel
  have hlines : ∀ note ∈ Code.listLeaves front, note.Protected context.groups occurs := by
    rw [hfront.leaves]
    simp
  exact protected_append hlines (protected_append hbody.1 (protected_calls _))

end Functions

section Sources

variable {algorithm : Algorithm} {definitions : Definitions} {atomicity : Atomicity}

/-- Code guards what its remarks tell the group of, if the remarks are right on every path. -/
theorem guards_of_flows {targets : List String} {code : NotedCode}
    (hresolve : algorithm.resolve = .ok definitions)
    (hinfer : algorithm.inferAtomicity definitions = .ok atomicity)
    (hprotected : ∀ note ∈ Code.listLeaves code, note.Protected atomicity.groups algorithm.Occurs)
    (hflows : Code.ListFlows (lockRule (· ∈ targets)) none none code none) :
    Guards algorithm atomicity.groups targets code := by
  intro notes point hpath remark rest expressions hcode hsubject
  -- The remark tells the group of the label, and the path holds what the remark tells.
  have hleads := hpath.everywhere (Code.listEverywhere_of_leaves code hprotected)
  obtain ⟨held, hpoint, hfollows⟩ := hpath.flows hflows
  obtain ⟨points, frames⟩ := point
  obtain ⟨heldAt, label?, subject⟩ := remark
  have hpoints : points = .leaf (.remark ⟨heldAt, label?, subject⟩) :: rest := hcode
  have hsame : subject = .evaluates expressions := hsubject
  subst hpoints hsame
  obtain ⟨label, hlabel, hheldAt, hoccurs⟩ := hleads
  obtain ⟨_, _, ⟨_, hremark, _⟩, _⟩ := hpoint
  have hheld : held = heldAt := hremark.1
  have hreplay := follows_replay hfollows
  rw [hheld, hheldAt] at hreplay
  refine ⟨label, hlabel, hreplay, ?_⟩
  intro expression hexpression identifier hidentifier
  obtain ⟨occurrence, hmem, hlabelled, huid⟩ :=
    hoccurs expression hexpression identifier hidentifier
  refine ⟨occurrence, hmem, hlabelled, huid, ?_⟩
  intro global hglobal
  exact Algorithm.guarded_of_touches hresolve hinfer
    ⟨occurrence, hmem, hlabelled, rfl, hglobal⟩

variable {context : FunctionContext} {imports : Imports} {source : Source} {code : NotedCode}
  {after : Progress}

/-- In a body in which labels follow labels, the group of the innermost label is open wherever
something is evaluated. -/
theorem protected_of_source (hresolve : algorithm.resolve = .ok definitions)
    (hinfer : algorithm.inferAtomicity definitions = .ok atomicity)
    (hgroups : context.groups = atomicity.groups) (hsource : source ∈ algorithm.sources)
    (hfollow : Statement.Throughout Statement.LabelsFollow source.body)
    (h : context.noted imports source.owner source.locals source.body = .ok (code, after)) :
    ∀ note ∈ Code.listLeaves code, note.Protected atomicity.groups algorithm.Occurs := by
  obtain ⟨hlabels, haccesses⟩ := Algorithm.occurs_of_source hresolve hinfer hsource
  have hsteps := Statement.stepwise_of_checkLabels hlabels hfollow
  rw [← hgroups]
  exact FunctionContext.noted_protected h hsteps haccesses

end Sources

end Go

open Go

/-- In every function of a generated program whose labels follow labels, everything is evaluated
under the lock of its own label. -/
theorem Algorithm.toGo_guards {algorithm : Algorithm} {definitions : Definitions}
    {atomicity : Atomicity} {settings : Settings} {program : Program}
    (hresolve : algorithm.resolve = .ok definitions)
    (hinfer : algorithm.inferAtomicity definitions = .ok atomicity)
    (hgo : algorithm.toGo definitions atomicity.groups settings = .ok program)
    (hfollow : ∀ source ∈ algorithm.sources,
      Statement.Throughout Statement.LabelsFollow source.body) :
    ∀ function ∈ program.functions, ∃ source ∈ algorithm.sources,
      ∃ context : FunctionContext, context.groups = atomicity.groups ∧
        ∃ imports code progress,
          context.noted imports source.owner source.locals source.body = .ok (code, progress) ∧
          Covers (· ∈ Statement.listJumpTargets source.body) code function.body.code ∧
          Guards algorithm atomicity.groups (Statement.listJumpTargets source.body) code := by
  obtain ⟨context, _, hgroups, hmakes⟩ := Algorithm.toGo_makes hgo
  intro function hfunction
  obtain ⟨source, hsource, imports, needed, hbody⟩ := hmakes function hfunction
  obtain ⟨code, progress, hnoted, hresult, _⟩ := FunctionContext.noted_of_body hbody
  refine ⟨source, hsource, context, hgroups, imports, code, progress, hnoted, ?_⟩
  rw [hresult]
  exact ⟨covers_erase _ code, guards_of_flows hresolve hinfer
    (protected_of_source hresolve hinfer hgroups hsource (hfollow source hsource) hnoted)
    (FunctionContext.noted_flows hnoted (FunctionContext.noted_fits hnoted))⟩

/-! ## Steps of two groups

The loop of the step `a` reads the global `x` in its condition and goes through the step `b`, which
writes another global. The step `c` writes `x` and goes on under the group of `a`. -/

private def alternating : Algorithm :=
  let mark (number : UInt32) : Mark := ⟨⟨number⟩, .unknown⟩
  ⟨"T", [], [⟨⟨1⟩, "x", none, .plain, .unknown⟩, ⟨⟨2⟩, "y", none, .plain, .unknown⟩], [],
    [⟨⟨3⟩, "P", ⟨4⟩, .single (.number ⟨5⟩ 1), [],
      [.labeled (mark 10) ⟨⟨11⟩, "a"⟩
          [.whileDo (mark 12) (.binary ⟨13⟩ .lessThan (.identifier ⟨14⟩ "x") (.number ⟨15⟩ 1))
            [.labeled (mark 20) ⟨⟨21⟩, "b"⟩
              [.assign (mark 22) [⟨.identifier ⟨23⟩ "y", .number ⟨24⟩ 2⟩]]]],
        .labeled (mark 30) ⟨⟨31⟩, "c"⟩
          [.assign (mark 32) [⟨.identifier ⟨33⟩ "x", .number ⟨34⟩ 3⟩]]]⟩]⟩

private def alternatingDefinitions : Definitions :=
  ⟨[⟨⟨1⟩, "x", .global .plain, .unknown⟩, ⟨⟨2⟩, "y", .global .plain, .unknown⟩,
    ⟨⟨4⟩, "self", .processSelf, .unknown⟩], [(⟨33⟩, ⟨1⟩), (⟨23⟩, ⟨2⟩), (⟨14⟩, ⟨1⟩)]⟩

private def alternatingAtomicity : Atomicity :=
  ⟨⟨[(⟨11⟩, ⟨0⟩), (⟨21⟩, ⟨1⟩), (⟨31⟩, ⟨0⟩)], [(⟨0⟩, ⟨1⟩)], [(⟨1⟩, ⟨2⟩), (⟨0⟩, ⟨1⟩)]⟩,
    ⟨"T", [⟨⟨0⟩, ["P.a", "P.c"], ["x"], ["x"]⟩, ⟨⟨1⟩, ["P.b"], [], ["y"]⟩], []⟩, []⟩

private def alternatingCode : List SectionCode :=
  [.label "a", .leaf ⟨.inProcess, .acquire, ⟨0⟩⟩,
    .loop [.branch "!(x < 1)" [.line "break"] [], .label "b",
      .leaf ⟨.inProcess, .release, ⟨0⟩⟩, .leaf ⟨.inProcess, .acquire, ⟨1⟩⟩, .line "y = 2",
      .leaf ⟨.inProcess, .release, ⟨1⟩⟩, .leaf ⟨.inProcess, .acquire, ⟨0⟩⟩],
    .label "c", .line "x = 3", .leaf ⟨.inProcess, .release, ⟨0⟩⟩]

private def alternatingProgram : Program :=
  ⟨"T", "main", .none, [.zero "x" "int", .zero "y" "int"], .mutexes 2,
    [⟨"P", [], ⟨alternatingCode, []⟩⟩], [.single "P" "1"]⟩

theorem Algorithm.toGo_guards_alternating :
    alternating.resolve = .ok alternatingDefinitions ∧
      alternating.inferAtomicity alternatingDefinitions = .ok alternatingAtomicity ∧
      alternating.toGo alternatingDefinitions alternatingAtomicity.groups .default =
        .ok alternatingProgram ∧
      (∀ source ∈ alternating.sources,
        Statement.Throughout Statement.LabelsFollow source.body) ∧
      ∃ code : NotedCode, code.erase = alternatingCode ∧
        Guards alternating alternatingAtomicity.groups [] code := by
  have hresolve : alternating.resolve = .ok alternatingDefinitions := by cbv
  have hinfer : alternating.inferAtomicity alternatingDefinitions = .ok alternatingAtomicity := by
    cbv
  have hgo : alternating.toGo alternatingDefinitions alternatingAtomicity.groups .default =
      .ok alternatingProgram := by cbv
  have hfollow : ∀ source ∈ alternating.sources,
      Statement.Throughout Statement.LabelsFollow source.body := by
    intro source hsource
    rw [List.mem_singleton.1 hsource]
    simp [Process.source, Statement.Throughout, Statement.LabelsFollow, Statement.ListNested,
      Statement.Nested, Statement.isLabeled]
  refine ⟨hresolve, hinfer, hgo, hfollow, ?_⟩
  obtain ⟨source, hsource, context, _, imports, code, progress, _, hcovers, hguards⟩ :=
    toGo_guards hresolve hinfer hgo hfollow _ List.mem_cons_self
  rw [List.mem_singleton.1 hsource] at hguards
  exact ⟨code, hcovers.1, hguards⟩

end PlusCalGo
