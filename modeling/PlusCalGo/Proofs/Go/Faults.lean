import PlusCalGo.Proofs.Go.Guards
import PlusCalGo.Proofs.Go.Prepared

/-!
# Faults of a whole program

A resolved algorithm whose lock groups are known becomes a program, unless a loop in it ends in
another state than it began. No other check of the generation can fail.
-/

namespace PlusCalGo

namespace Go

/-! ## Functions -/

private theorem noteCopies_done (copies : List VariableDecl) (progress : Progress) :
    ∃ code, noteCopies copies progress = .ok (code, progress) := by
  induction copies with
  | nil => exact ⟨[], rfl⟩
  | cons decl rest ih =>
    obtain ⟨code, hrest⟩ := ih
    exact ⟨_, Noting.append_ok.2 ⟨_, _, _, rfl, hrest, rfl⟩⟩

/-- A declaration can be made if its initial value has a text. -/
theorem declarationOf_ok {definitions : Definitions} {decl : VariableDecl}
    (h : ∀ value ∈ decl.value, ∃ text, value.toGo definitions = .ok text) :
    ∃ declaration, declarationOf definitions decl = .ok declaration := by
  cases hvalue : decl.value with
  | none => exact ⟨_, by rw [declarationOf, hvalue]; rfl⟩
  | some value =>
    obtain ⟨text, htext⟩ := h value hvalue
    exact ⟨_, by simp only [declarationOf, hvalue, htext]; rfl⟩

private theorem noteLocals_done {definitions : Definitions} (locals : List VariableDecl)
    (hvalues : ∀ value ∈ VariableDecl.values locals, ∃ text, value.toGo definitions = .ok text)
    (progress : Progress) :
    ∃ code, noteLocals definitions locals progress = .ok (code, progress) := by
  induction locals with
  | nil => exact ⟨[], rfl⟩
  | cons decl rest ih =>
    have hdecl : ∀ value ∈ decl.value, ∃ text, value.toGo definitions = .ok text := by
      intro value hvalue
      exact hvalues value (List.mem_filterMap.2 ⟨decl, List.mem_cons_self, hvalue⟩)
    have hothers : ∀ value ∈ VariableDecl.values rest,
        ∃ text, value.toGo definitions = .ok text := by
      intro value hvalue
      obtain ⟨other, hother, hvalue⟩ := List.mem_filterMap.1 hvalue
      exact hvalues value
        (List.mem_filterMap.2 ⟨other, List.mem_cons_of_mem decl hother, hvalue⟩)
    obtain ⟨declaration, hdeclaration⟩ := declarationOf_ok hdecl
    obtain ⟨code, hrest⟩ := ih hothers
    exact ⟨_, Noting.bind_ok.2 ⟨_, _, Noting.attempt_ok.2 ⟨hdeclaration, rfl⟩,
      Noting.append_ok.2 ⟨_, _, _, rfl, hrest, rfl⟩⟩⟩

namespace FunctionContext

variable {context : FunctionContext} {imports : Imports} {source : Source}

/-- Lowering the body of a source comes to a statement. -/
def Visits (context : FunctionContext) (imports : Imports) (source : Source) (visit : Visit) :
    Prop :=
  Go.Visits context.definitions (Statement.listJumpTargets source.body) none source.body
    (context.start imports source.owner) visit

/-- A statement in the body of a source can go wrong. -/
def Fault (context : FunctionContext) (source : Source) (visit : Visit) (problem : Diagnostic) :
    Prop :=
  Go.Fault context.definitions (Statement.listJumpTargets source.body) visit problem

/-- A loop that lowering comes to ends in another state than it began. Whatever code is made before
it, lowering fails there. -/
def FailsAtLoop (context : FunctionContext) (imports : Imports) (source : Source)
    (problem : Diagnostic) : Prop :=
  ∃ visit, context.Visits imports source visit ∧
    Strays context.definitions (Statement.listJumpTargets source.body) visit problem ∧
    ∀ lowering : Lowering, lowering.progress = visit.state → ∃ left,
      lowerStatement context.definitions (Statement.listJumpTargets source.body) visit.statement
        lowering = .error problem left

/-- Making the function of a source fails only at a loop. Nothing else can go wrong in it. -/
structure FailsOnlyAtLoops (context : FunctionContext) (imports : Imports) (source : Source) :
    Prop where
  body : ∀ problem, context.body imports source.owner source.locals source.body = .error problem →
    context.FailsAtLoop imports source problem
  joins : ∀ visit, context.Visits imports source visit →
    Joins context.definitions (Statement.listJumpTargets source.body) visit
  strays : ∀ visit, context.Visits imports source visit → ∀ problem,
    context.Fault source visit problem →
      Strays context.definitions (Statement.listJumpTargets source.body) visit problem

/-- The body of a source is prepared with all its labels. -/
def Prepares (context : FunctionContext) (imports : Imports) (source : Source) : Prop :=
  ∃ names, Collects [] (Statement.listInnerLabels source.body) names ∧
    Prepared context.definitions names none source.body (context.start imports source.owner)

theorem anchored_start (names : List String) (owner : Uid) :
    (context.start imports owner).Anchored names :=
  ⟨rfl, fun _ h => (by cases h), List.forall_mem_nil _⟩

/-- A body that is lowered has a label for each jump. -/
theorem Prepares.declared {code : NotedCode} {after : Progress}
    (h : context.Prepares imports source)
    (hnoted : context.noted imports source.owner source.locals source.body = .ok (code, after)) :
    ∀ name ∈ after.targets, name ∈ after.labels := by
  obtain ⟨names, hnames, hprepared⟩ := h
  obtain ⟨front, inner, last, _, hinner, rfl, _⟩ := noted_ok hnoted
  have hcarries := carries_statements source.body hprepared.jumps hinner
  intro name hname
  rcases (hcarries.anchored hprepared.anchored).targets name hname with hname | hname
  · rcases (hnames.2 name).1 hname with hname | hlabel
    · cases hname
    · exact (hcarries.declares name).2 (.inr hlabel)
  · exact hname

/-- A prepared function whose locals have texts is made, unless it fails at a loop. -/
theorem Prepares.failsAtLoop {problem : Diagnostic} (h : context.Prepares imports source)
    (hvalues : ∀ value ∈ VariableDecl.values source.locals,
      ∃ text, value.toGo context.definitions = .ok text)
    (herror : context.body imports source.owner source.locals source.body = .error problem) :
    context.FailsAtLoop imports source problem := by
  have hwrites := writes_function context.definitions context.copies source.locals source.body
  let lowering : Lowering :=
    ⟨⟨(context.start imports source.owner).tracker, Builder.empty⟩, 0, imports⟩
  have hstart : lowering.progress = context.start imports source.owner := rfl
  obtain ⟨copies, hcopies⟩ :=
    noteCopies_done context.copies (context.start imports source.owner)
  obtain ⟨locals, hlocals⟩ :=
    noteLocals_done source.locals hvalues (context.start imports source.owner)
  cases hinner : noteBody context.definitions source.body (context.start imports source.owner) with
  | error other =>
    have hnoted : noteFunction context.definitions context.copies source.locals source.body
        lowering.progress = .error other :=
      Noting.append_error.2 (.inr ⟨_, _, hcopies, Noting.append_error.2 (.inr ⟨_, _, hlocals,
        Noting.append_error.2 (.inl hinner)⟩)⟩)
    obtain ⟨left, hleft⟩ := hwrites.of_error hnoted
    have hsame : other = problem := by
      simp only [FunctionContext.body] at herror
      split at herror
      · next hlower =>
        cases herror
        cases hlower.symm.trans hleft
        rfl
      · next hlower => cases hlower.symm.trans hleft
    subst hsame
    obtain ⟨names, _, hprepared⟩ := h
    have hprepared : Prepared context.definitions names ((none : Option Arrival).map (·.label))
        source.body (context.start imports source.owner) := hprepared
    obtain ⟨visit, hvisits, hstrays⟩ := strays_of_error hprepared hinner
    exact ⟨visit, hvisits, hstrays, fun _ => hstrays.lower⟩
  | ok result =>
    exfalso
    obtain ⟨inner, last⟩ := result
    have hnoted : noteFunction context.definitions context.copies source.locals source.body
        lowering.progress = .ok (copies ++ (locals ++ (inner ++ .ofCalls last.tracker.closing)),
          { last with tracker := last.tracker.idle }) :=
      Noting.append_ok.2 ⟨_, _, _, hcopies, Noting.append_ok.2 ⟨_, _, _, hlocals,
        Noting.append_ok.2 ⟨_, _, _, hinner, Noting.close_ok.2 ⟨rfl, rfl⟩, rfl⟩, rfl⟩, rfl⟩
    have hdeclared := h.declared hnoted
    have hlowered := hwrites.of_ok hnoted
    simp only [FunctionContext.body] at herror
    split at herror
    · next hlower => cases hlower.symm.trans hlowered
    · next hlower =>
      cases hlower.symm.trans hlowered
      rcases error_of_bind herror with hfinish | ⟨finished, _, hfinished⟩
      · cases (Builder.finish_ok_iff.2 ⟨rfl, hdeclared, rfl⟩).symm.trans hfinish
      · cases hfinished

theorem Prepares.failsOnlyAtLoops (h : context.Prepares imports source)
    (hvalues : ∀ value ∈ VariableDecl.values source.locals,
      ∃ text, value.toGo context.definitions = .ok text) :
    context.FailsOnlyAtLoops imports source where
  body := fun _ => h.failsAtLoop hvalues
  joins := fun visit _ => joins visit
  strays := by
    intro visit hvisits problem hfault
    obtain ⟨names, _, hprepared⟩ := h
    obtain ⟨rest, hvisit⟩ := prepared_of_visits hvisits hprepared
    exact strays_of_fault hfault hvisit

/-! ## Sources -/

variable {problem : Diagnostic}

/-- Where making functions one after the other fails, making one of them does. -/
private theorem error_of_functions {α : Type} (source : α → Source)
    {make : Imports → List α → Except Diagnostic (List Function × Imports)}
    (hnil : ∀ imports, make imports [] = .ok ([], imports))
    (hcons : ∀ item rest imports, make imports (item :: rest) = .error problem →
      context.body imports (source item).owner (source item).locals (source item).body =
        .error problem ∨ ∃ between, make between rest = .error problem)
    {items : List α} {imports : Imports} (h : make imports items = .error problem) :
    ∃ item ∈ items, ∃ imports, context.body imports (source item).owner (source item).locals
      (source item).body = .error problem := by
  induction items generalizing imports with
  | nil =>
    rw [hnil] at h
    cases h
  | cons item rest ih =>
    rcases hcons item rest imports h with h | ⟨between, h⟩
    · exact ⟨item, List.mem_cons_self, imports, h⟩
    · obtain ⟨other, hother, hbody⟩ := ih h
      exact ⟨other, List.mem_cons_of_mem item hother, hbody⟩

theorem error_of_procedures {procedures : List Procedure}
    (h : context.procedures imports procedures = .error problem) :
    ∃ procedure ∈ procedures, ∃ imports, context.body imports procedure.uid procedure.locals
      procedure.body = .error problem := by
  refine error_of_functions Procedure.source (fun _ => rfl) ?_ h
  intro procedure rest imports h
  rcases error_of_bind h with h | ⟨made, _, h⟩
  · exact .inl h
  rcases error_of_bind h with h | ⟨others, _, h⟩
  · exact .inr ⟨made.2, h⟩
  · cases h

theorem error_of_processes {processes : List Process}
    (h : context.processes imports processes = .error problem) :
    ∃ process ∈ processes, ∃ imports, context.body imports process.uid process.locals
      process.body = .error problem := by
  refine error_of_functions Process.source (fun _ => rfl) ?_ h
  intro process rest imports h
  rcases error_of_bind h with h | ⟨made, _, h⟩
  · exact .inl h
  rcases error_of_bind h with h | ⟨others, _, h⟩
  · exact .inr ⟨made.2, h⟩
  · cases h

end FunctionContext

end Go

open Go

namespace Algorithm

variable {algorithm : Algorithm} {definitions : Definitions} {atomicity : Atomicity}
  {settings : Settings}

/-- All sources of a resolved algorithm are prepared. -/
theorem prepares_of_source (hresolve : algorithm.resolve = .ok definitions)
    (hinfer : algorithm.inferAtomicity definitions = .ok atomicity) {source : Source}
    (hsource : source ∈ algorithm.sources) {context : FunctionContext}
    (hcontext : context.definitions = definitions) (imports : Imports) :
    context.Prepares imports source := by
  obtain ⟨hlabels, hproblem, haccesses⟩ := occurs_of_source hresolve hinfer hsource
  obtain ⟨names, hnames, hjumps⟩ := Statement.labels_of_checkLabels hlabels
  obtain ⟨_, hprocedures, hprocesses⟩ := valued_of_resolve hresolve
  have hvalued : Statement.Throughout Statement.ListValued source.body := by
    rcases List.mem_append.1 hsource with hsource | hsource
    · obtain ⟨procedure, hmem, rfl⟩ := List.mem_map.1 hsource
      exact hprocedures procedure hmem
    · obtain ⟨process, hmem, rfl⟩ := List.mem_map.1 hsource
      exact hprocesses process hmem
  have haccessed : (Statement.listAccesses none source.body).All (Access.Occurs fun _ identifier =>
      ∃ definition, context.definitions.resolve identifier = .ok definition) := by
    refine ⟨hproblem, ?_⟩
    intro access haccess identifier hidentifier
    obtain ⟨occurrence, hmem, _, rfl⟩ := haccesses access haccess identifier hidentifier
    rw [hcontext]
    exact resolve_of_occurrence hresolve occurrence hmem
  refine ⟨names, hnames, FunctionContext.anchored_start names source.owner, hjumps, hnames.1,
    Statement.checkAdjacent_of_checkLabels hlabels, hvalued, haccessed, ?_⟩
  -- A body begins with a label, since nothing is accessed outside of labels.
  intro statement hstatement hlabeled
  obtain ⟨rest, hbody⟩ := List.head?_eq_some_iff.1 hstatement
  rw [hbody] at haccessed
  obtain ⟨_, hnone⟩ :=
    Statement.label_of_accesses (AccessTrace.all_append.1 haccessed).1 hlabeled
  cases hnone

theorem strategy_of_plain (hresolve : algorithm.resolve = .ok definitions)
    (hinfer : algorithm.inferAtomicity definitions = .ok atomicity)
    (hplain : settings.locking = .coordinated →
      ∀ decl ∈ algorithm.globals, decl.resource = .plain) :
    ∃ strategy, Strategy.ofMode settings.locking atomicity.groups definitions = .ok strategy := by
  obtain ⟨hglobals, _, _⟩ := valued_of_resolve hresolve
  apply Strategy.ofMode_ok
  · intro hlocking definition hdefinition
    obtain ⟨hmem, hglobal⟩ := List.mem_filter.1 hdefinition
    obtain ⟨decl, hdecl, _, hresource⟩ := hglobals definition hmem hglobal
    rw [hresource]
    exact hplain hlocking decl hdecl
  · intro group uid huid
    rw [LockGroups.mem_readsOf, LockGroups.mem_writesOf] at huid
    exact definition_of_uses hresolve hinfer huid

private theorem mapM_ok {α β : Type} {make : α → Except Diagnostic β} {items : List α}
    (h : ∀ item ∈ items, ∃ made, make item = .ok made) {problem : Diagnostic} :
    items.mapM make ≠ .error problem := by
  suffices ∃ all, items.mapM make = .ok all by
    obtain ⟨all, hall⟩ := this
    simp [hall]
  induction items with
  | nil => exact ⟨[], rfl⟩
  | cons item rest ih =>
    obtain ⟨⟨made, hmade⟩, hothers⟩ := List.forall_mem_cons.1 h
    obtain ⟨all, hall⟩ := ih hothers
    exact ⟨made :: all, by rw [List.mapM_cons, hmade, hall]; rfl⟩

/-- The texts that a program has besides its functions. -/
private structure Outlined (algorithm : Algorithm) (definitions : Definitions) : Prop where
  constants : ∀ decl ∈ algorithm.constants, ∃ made, constantOf definitions decl = .ok made
  declarations : ∀ decl ∈ algorithm.globals, ∃ made, declarationOf definitions decl = .ok made
  initials : ∀ decl ∈ algorithm.globals, ∃ made, initialValue definitions decl = .ok made
  launches : ∀ process ∈ algorithm.processes, ∃ made, launchOf definitions process = .ok made

private theorem outlined_of_resolve (hresolve : algorithm.resolve = .ok definitions) :
    Outlined algorithm definitions := by
  have htext := toGo_of_values hresolve
  simp only [values, List.mem_append] at htext
  have hglobal : ∀ decl ∈ algorithm.globals, ∀ value ∈ decl.value,
      ∃ text, value.toGo definitions = .ok text := by
    intro decl hmem value hvalue
    exact htext value (.inl (.inl (.inr (List.mem_filterMap.2 ⟨decl, hmem, hvalue⟩))))
  refine ⟨?_, fun decl hmem => declarationOf_ok (hglobal decl hmem), ?_, ?_⟩
  · intro decl hmem
    cases hvalue : decl.value with
    | none => exact ⟨_, by simp only [constantOf, hvalue]; rfl⟩
    | some value =>
      obtain ⟨text, htext⟩ :=
        htext value (.inl (.inl (.inl (List.mem_filterMap.2 ⟨decl, hmem, hvalue⟩))))
      exact ⟨_, by simp only [constantOf, hvalue, htext]; rfl⟩
  · intro decl hmem
    cases hvalue : decl.value with
    | none => exact ⟨_, by simp only [initialValue, hvalue]; rfl⟩
    | some value =>
      obtain ⟨text, htext⟩ := hglobal decl hmem value hvalue
      exact ⟨_, by simp only [initialValue, hvalue, htext]; rfl⟩
  · intro process hmem
    have hself (value : Expression) (hvalue : value ∈ process.selfValue.values) :=
      htext value (.inr (List.mem_flatMap.2 ⟨process, hmem, List.mem_append_left _ hvalue⟩))
    cases hvalue : process.selfValue with
    | single value =>
      obtain ⟨text, htext⟩ := hself value (by simp [hvalue, ProcessSelf.values])
      exact ⟨_, by simp only [launchOf, hvalue, htext]; rfl⟩
    | range low high =>
      obtain ⟨lowText, hlow⟩ := hself low (by simp [hvalue, ProcessSelf.values])
      obtain ⟨highText, hhigh⟩ := hself high (by simp [hvalue, ProcessSelf.values])
      exact ⟨_, by simp only [launchOf, hvalue, hlow, hhigh]; rfl⟩

/-- Where a program cannot be made, one of its functions cannot. -/
theorem error_of_toGo (hresolve : algorithm.resolve = .ok definitions)
    {groups : LockGroups} {strategy : Strategy} {problem : Diagnostic}
    (hstrategy : Strategy.ofMode settings.locking groups definitions = .ok strategy)
    (h : algorithm.toGo definitions groups settings = .error problem) :
    ∃ source ∈ algorithm.sources, ∃ imports,
      (algorithm.context definitions groups settings.locking strategy).body imports source.owner
        source.locals source.body = .error problem := by
  have houtlined := outlined_of_resolve hresolve
  rcases error_of_bind h with h | ⟨other, hother, h⟩
  · rw [hstrategy] at h
    cases h
  obtain rfl : strategy = other := Except.ok.inj (hstrategy.symm.trans hother)
  rcases error_of_bind h with h | ⟨procedures, _, h⟩
  · obtain ⟨procedure, hmem, imports, hbody⟩ := FunctionContext.error_of_procedures h
    exact ⟨procedure.source, List.mem_append_left _ (List.mem_map_of_mem hmem), imports, hbody⟩
  rcases error_of_bind h with h | ⟨processes, _, h⟩
  · obtain ⟨process, hmem, imports, hbody⟩ := FunctionContext.error_of_processes h
    exact ⟨process.source, List.mem_append_right _ (List.mem_map_of_mem hmem), imports, hbody⟩
  exfalso
  rcases error_of_bind h with h | ⟨constants, _, h⟩
  · exact mapM_ok houtlined.constants h
  rcases error_of_bind h with h | ⟨globals, _, h⟩
  · cases hlocking : settings.locking with
    | inProcess =>
      rw [hlocking] at h
      exact mapM_ok houtlined.declarations h
    | coordinated =>
      rw [hlocking] at h
      cases h
  rcases error_of_bind h with h | ⟨locks, _, h⟩
  · rw [lockHome] at h
    cases hlocking : settings.locking with
    | inProcess =>
      rw [hlocking] at h
      cases h
    | coordinated =>
      rw [hlocking] at h
      rcases error_of_bind h with h | ⟨globals, _, h⟩
      · exact mapM_ok houtlined.initials h
      · cases h
  rcases error_of_bind h with h | ⟨launches, _, h⟩
  · exact mapM_ok houtlined.launches h
  · cases h

/-- Where the groups of an algorithm are known, making its program fails only at a loop that ends in
another state than it began. Globals that the state service has to store must be plain. -/
theorem toGo_fails_only_at_loops (hresolve : algorithm.resolve = .ok definitions)
    (hinfer : algorithm.inferAtomicity definitions = .ok atomicity)
    (hplain : settings.locking = .coordinated →
      ∀ decl ∈ algorithm.globals, decl.resource = .plain) :
    ∃ strategy, Strategy.ofMode settings.locking atomicity.groups definitions = .ok strategy ∧
      (∀ problem, algorithm.toGo definitions atomicity.groups settings = .error problem →
        ∃ source ∈ algorithm.sources, ∃ imports,
          (algorithm.context definitions atomicity.groups settings.locking strategy).FailsAtLoop
            imports source problem) ∧
      ∀ source ∈ algorithm.sources, ∀ imports,
        (algorithm.context definitions atomicity.groups settings.locking strategy).FailsOnlyAtLoops
          imports source := by
  obtain ⟨strategy, hstrategy⟩ := strategy_of_plain hresolve hinfer hplain
  have honly : ∀ source ∈ algorithm.sources, ∀ imports,
      (algorithm.context definitions atomicity.groups settings.locking strategy).FailsOnlyAtLoops
        imports source := by
    intro source hsource imports
    refine (prepares_of_source hresolve hinfer hsource rfl imports).failsOnlyAtLoops ?_
    intro value hvalue
    apply toGo_of_values hresolve
    rcases List.mem_append.1 hsource with hsource | hsource
    · obtain ⟨procedure, hmem, rfl⟩ := List.mem_map.1 hsource
      exact List.mem_append_left _
        (List.mem_append_right _ (List.mem_flatMap.2 ⟨procedure, hmem, hvalue⟩))
    · obtain ⟨process, hmem, rfl⟩ := List.mem_map.1 hsource
      exact List.mem_append_right _
        (List.mem_flatMap.2 ⟨process, hmem, List.mem_append_right _ hvalue⟩)
  refine ⟨strategy, hstrategy, ?_, honly⟩
  intro problem herror
  obtain ⟨source, hsource, imports, hbody⟩ := error_of_toGo hresolve hstrategy herror
  exact ⟨source, hsource, imports, (honly source hsource imports).body problem hbody⟩

end Algorithm

/-! ## A loop that strays

The loop begins in the step `a`, which reads `x`. The step `b` in it touches nothing, and the step
`c` opens the group of `x` again, so the end of the loop goes on with the label of `c`. -/

def straying : Algorithm :=
  let mark (number : UInt32) : Mark := ⟨⟨number⟩, .unknown⟩
  ⟨"T", [], [⟨⟨1⟩, "x", none, .plain, .unknown⟩], [],
    [⟨⟨2⟩, "P", ⟨3⟩, .single (.number ⟨4⟩ 1), [],
      [.labeled (mark 10) ⟨⟨11⟩, "a"⟩
        [.whileDo (mark 12) (.binary ⟨13⟩ .lessThan (.identifier ⟨14⟩ "x") (.number ⟨15⟩ 1))
          [.labeled (mark 20) ⟨⟨21⟩, "b"⟩ [.skip (mark 22)],
            .labeled (mark 30) ⟨⟨31⟩, "c"⟩
              [.assign (mark 32) [⟨.identifier ⟨33⟩ "x", .number ⟨34⟩ 1⟩]]]]]⟩]⟩

def strayingDefinitions : Definitions :=
  ⟨[⟨⟨1⟩, "x", .global .plain, .unknown⟩, ⟨⟨3⟩, "self", .processSelf, .unknown⟩],
    [(⟨33⟩, ⟨1⟩), (⟨14⟩, ⟨1⟩)]⟩

def strayingAtomicity : Atomicity :=
  ⟨⟨[(⟨11⟩, ⟨0⟩), (⟨31⟩, ⟨0⟩)], [(⟨0⟩, ⟨1⟩)], [(⟨0⟩, ⟨1⟩)]⟩,
    ⟨"T", [⟨⟨0⟩, ["P.a", "P.c"], ["x"], ["x"]⟩], ["P.b"]⟩, []⟩

/-- The service makes no difference to the loop. -/
theorem Algorithm.toGo_fails_only_at_loops_straying :
    straying.resolve = .ok strayingDefinitions ∧
      straying.inferAtomicity strayingDefinitions = .ok strayingAtomicity ∧
      (∀ decl ∈ straying.globals, decl.resource = .plain) ∧
      straying.toGo strayingDefinitions strayingAtomicity.groups
        { Settings.default with locking := .coordinated } =
          .error (.of (.otherLabel (some "c") (some "a"))) ∧
      ∃ (context : FunctionContext), ∃ source ∈ straying.sources, ∃ imports,
        context.FailsAtLoop imports source (.of (.otherLabel (some "c") (some "a"))) := by
  have hresolve : straying.resolve = .ok strayingDefinitions := by cbv
  have hinfer : straying.inferAtomicity strayingDefinitions = .ok strayingAtomicity := by cbv
  have hplain : ∀ decl ∈ straying.globals, decl.resource = .plain := by
    intro decl hdecl
    rw [List.mem_singleton.1 hdecl]
  have herror : straying.toGo strayingDefinitions strayingAtomicity.groups
      { Settings.default with locking := .coordinated } =
        .error (.of (.otherLabel (some "c") (some "a"))) := by cbv
  obtain ⟨strategy, _, hfails, _⟩ := Algorithm.toGo_fails_only_at_loops hresolve hinfer
    fun _ => hplain
  exact ⟨hresolve, hinfer, hplain, herror, _, hfails _ herror⟩

end PlusCalGo
