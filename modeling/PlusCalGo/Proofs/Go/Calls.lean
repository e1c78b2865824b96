import PlusCalGo.Proofs.Go.RetryTargets

/-!
# Arguments of calls

The line of a call evaluates its arguments, and stands behind the code that closes the open section.
So the arguments are read with nothing held, also those that the label of the step has its lock
group for.
-/

namespace PlusCalGo

namespace Statement

/-- The accesses of a statement are among those of the statements it stands in. -/
theorem accesses_of_stands {property : Access → Prop} {statement : Statement}
    {found? label? : Option Label} {statements : List Statement}
    (hstands : statement.Stands found? label? statements)
    (h : (listAccesses label? statements).All property) :
    (statement.accesses found?).All property := by
  induction hstands with
  | here => exact (AccessTrace.all_append.1 h).1
  | later _ ih => exact ih (AccessTrace.all_append.1 h).2
  | labeled _ ih => exact ih (AccessTrace.all_append.1 h).1
  | loop _ ih =>
    obtain ⟨_, rfl, hloop⟩ := under_all (AccessTrace.all_append.1 h).1
    exact ih (AccessTrace.all_append.1 hloop).2
  | yes _ ih =>
    obtain ⟨_, rfl, hbranches⟩ := under_all (AccessTrace.all_append.1 h).1
    exact ih (AccessTrace.all_append.1 (AccessTrace.all_append.1 hbranches).2).1
  | no _ ih =>
    obtain ⟨_, rfl, hbranches⟩ := under_all (AccessTrace.all_append.1 h).1
    exact ih (AccessTrace.all_append.1 (AccessTrace.all_append.1 hbranches).2).2
  | case _ ih =>
    obtain ⟨_, rfl, hcases⟩ := under_all (AccessTrace.all_append.1 h).1
    exact ih (casesAccesses_all hcases (by simp))
  | inside _ ih =>
    obtain ⟨_, rfl, hinside⟩ := under_all (AccessTrace.all_append.1 h).1
    exact ih (AccessTrace.all_append.1 hinside).2

end Statement

namespace Go

/-! ## The section that a call closes -/

/-- In its step, the tracker has the group of the label open. -/
theorem Arrival.begun_openGroup (arrival : Arrival) :
    arrival.begun.openGroup = arrival.tracker.groups.value.groupOf? arrival.label.uid := by
  unfold Arrival.begun
  split
  · rename_i hcontinues
    obtain ⟨group, hopen, hgroup⟩ := Tracker.continues_iff.1 hcontinues
    rw [hopen, hgroup]
  · rfl

/-- The calls that close the section of a label. -/
def FunctionContext.releasing (context : FunctionContext) (label : Label) : List SectionCall :=
  match context.groups.groupOf? label.uid with
  | some group => [⟨context.strategy, .release, group⟩]
  | none => []

theorem Tracker.closing_of_settled {context : FunctionContext} {tracker : Tracker} {label : Label}
    (hsettled : tracker.Settled) (hstrategy : tracker.strategy.value = context.strategy)
    (hopen : tracker.openGroup = context.groups.groupOf? label.uid) :
    tracker.closing = context.releasing label := by
  unfold Tracker.closing FunctionContext.releasing
  rw [← hopen, ← hstrategy]
  cases hgroup : tracker.openGroup with
  | none => rfl
  | some group =>
    cases hlabel : tracker.label with
    | some entry => rfl
    | none =>
      rw [Tracker.Settled, hgroup, hlabel] at hsettled
      cases hsettled

/-! ## The code of a call -/

/-- The line of a call, of which the arguments have texts. -/
def callLine (target : String) (texts : List String) : String :=
  target ++ "(" ++ ", ".intercalate ("self" :: texts) ++ ")"

/-- The arguments are evaluated by the line, and `closing` stands right in front of it. -/
structure FunctionContext.CallsAfter (context : FunctionContext) (label : Label) (target : String)
    (arguments : List Expression) (closing : List SectionCall) (code : NotedCode) : Prop where
  stretch : ∃ texts, Expression.listToGo context.definitions arguments = .ok texts ∧
    Code.Stretch (NotedCode.ofCalls closing ++
      [.leaf (.remark ⟨none, some label, .calls arguments⟩), .line (callLine target texts)]) code

/-- Every path that comes to the arguments of such a call holds the same there. -/
def HeldAtCall (targets : List String) (code : NotedCode) (label : Label)
    (arguments : List Expression) (held : Option LockGroup) : Prop :=
  ∀ notes point, Path (· ∈ targets) code notes point → ∀ rest,
    point.code = .leaf (.remark ⟨none, some label, .calls arguments⟩) :: rest →
      replay none (callsOf notes) = some held

theorem noteStatement_call_eq {definitions : Definitions} {targets : List String}
    {label? : Option Label} {mark : Mark} {target : String} {arguments : List Expression}
    {progress after : Progress} {code : NotedCode}
    (h : noteStatement definitions targets label? (.call mark target arguments) progress =
      .ok (code, after)) :
    ∃ texts, Expression.listToGo definitions arguments = .ok texts ∧
      code = NotedCode.ofCalls progress.tracker.closing ++
        [.leaf (.remark ⟨none, label?, .calls arguments⟩), .line (callLine target texts)] := by
  simp only [noteStatement, Noting.bind_ok, Noting.attempt_ok, Noting.append_ok, Noting.close_ok,
    Noting.remark_ok, Noting.emitLine, Noting.emit_ok] at h
  obtain ⟨texts, _, ⟨htexts, rfl⟩, _, _, _, ⟨rfl, rfl⟩, ⟨_, _, _, ⟨rfl, rfl⟩, ⟨rfl, rfl⟩, rfl⟩,
    rfl⟩ := h
  exact ⟨texts, htexts, rfl⟩

section Calls

variable {context : FunctionContext} {imports : Imports} {source : Source}

/-- Every call in a source has its code in the function that is made of the source. It closes the
section that is open there; if labels follow labels, this is the section of its own label. -/
theorem calls_of_stands (hprepares : context.Prepares imports source) {mark : Mark}
    {target : String} {arguments : List Expression} {label : Label}
    (hstands : (Statement.call mark target arguments).Stands (some label) none source.body)
    {code : NotedCode} {after : Progress}
    (hnoted : context.noted imports source.owner source.locals source.body = .ok (code, after)) :
    ∃ closing, context.CallsAfter label target arguments closing code ∧
      (Statement.Throughout Statement.Stepwise source.body →
        closing = context.releasing label) := by
  obtain ⟨front, inner, last, _, hinner, _, rfl⟩ := FunctionContext.noted_ok hnoted
  have hstands : (Statement.call mark target arguments).Stands (some label)
      ((none : Option Arrival).map (·.label)) source.body := hstands
  obtain ⟨visit, hvisits, hfound, hstatement, stretch, _, hlower, hstretch⟩ :=
    writes_of_stands hstands hinner
  rw [hstatement] at hlower
  obtain ⟨texts, htexts, rfl⟩ := noteStatement_call_eq hlower
  rw [hfound] at hstretch
  refine ⟨visit.state.tracker.closing, ⟨texts, htexts, hstretch.between front _⟩, ?_⟩
  intro hsteps
  obtain ⟨arrival, harrival, rfl⟩ := Option.map_eq_some_iff.1 hfound
  have hbegun := begun_of_visits hvisits hsteps (fun _ _ _ _ hnone => nomatch hnone)
    (by rw [hstatement]; rfl) arrival harrival
  obtain ⟨names, _, hprepared⟩ := hprepares
  obtain ⟨_, hvisit⟩ := prepared_of_visits hvisits hprepared
  obtain ⟨_, _, hcarries⟩ := carries_of_visits hvisits (.self _)
  have hgroups : arrival.tracker.groups.value = context.groups := by
    rcases reaches_of_visits hvisits arrival harrival with hnone | hreaches
    · cases hnone
    · exact (hreaches.settled hprepared rfl).2.1
  apply Tracker.closing_of_settled hvisit.anchored.settled
  · rw [hcarries.alike.strategy]
    rfl
  · rw [hbegun, arrival.begun_openGroup, hgroups]

end Calls

end Go

open Go

namespace Algorithm

variable {algorithm : Algorithm} {definitions : Definitions} {atomicity : Atomicity}
  {settings : Settings} {program : Program} {source : Source} {mark : Mark} {target : String}
  {arguments : List Expression} {found? : Option Label}

/-- The identifiers in the arguments of a call occur under the label of the call. -/
theorem occurs_of_argument (hresolve : algorithm.resolve = .ok definitions)
    (hinfer : algorithm.inferAtomicity definitions = .ok atomicity)
    (hsource : source ∈ algorithm.sources)
    (hstands : (Statement.call mark target arguments).Stands found? none source.body) :
    ∃ label, found? = some label ∧ ∀ argument ∈ arguments, ∀ identifier ∈ argument.identifiers,
      algorithm.Occurs label identifier := by
  obtain ⟨_, haccesses⟩ := occurs_of_source hresolve hinfer hsource
  obtain ⟨label, rfl, hcall⟩ := Statement.under_all
    (Statement.accesses_of_stands hstands haccesses)
  refine ⟨label, rfl, fun argument hargument identifier hidentifier => ?_⟩
  have hread := AccessTrace.all_concat.1 hcall _ (List.mem_map_of_mem hargument)
  exact reading_occurs.1 hread identifier hidentifier

/-- A label under which a global variable occurs has a group. -/
theorem grouped_of_occurs (hresolve : algorithm.resolve = .ok definitions)
    (hinfer : algorithm.inferAtomicity definitions = .ok atomicity) {label : Label}
    {identifier global : Uid} (hoccurs : algorithm.Occurs label identifier)
    (hglobal : definitions.globalOf? identifier = some global) :
    ∃ group, atomicity.groups.groupOf? label.uid = some group := by
  obtain ⟨occurrence, hmem, hlabel, rfl⟩ := hoccurs
  rw [globalOf?_of_resolve hresolve occurrence hmem] at hglobal
  obtain ⟨hgrouped, _⟩ := groupOf?_exact hresolve hinfer
  have htouches : algorithm.Touches label.uid occurrence.isTarget global :=
    ⟨occurrence, hmem, hlabel, rfl, hglobal⟩
  exact Option.isSome_iff_exists.1 ((hgrouped label.uid).2 ⟨_, _, htouches⟩)

/-- The line of each call evaluates the arguments behind the code that closes the section, which is
the section of its own label if labels follow labels. Nothing is held there, although the label has
a group if a global variable is among the arguments. -/
theorem toGo_calls (hresolve : algorithm.resolve = .ok definitions)
    (hinfer : algorithm.inferAtomicity definitions = .ok atomicity)
    (hgo : algorithm.toGo definitions atomicity.groups settings = .ok program)
    (hsource : source ∈ algorithm.sources)
    (hstands : (Statement.call mark target arguments).Stands found? none source.body) :
    ∃ function ∈ program.functions, function.name = source.name ∧
      ∃ context : FunctionContext, context.definitions = definitions ∧
        context.groups = atomicity.groups ∧
        ∃ label closing code, found? = some label ∧
          Covers (· ∈ Statement.listJumpTargets source.body) code function.body.code ∧
          context.CallsAfter label target arguments closing code ∧
          (Statement.Throughout Statement.LabelsFollow source.body →
            closing = context.releasing label) ∧
          HeldAtCall (Statement.listJumpTargets source.body) code label arguments none ∧
          ∀ argument ∈ arguments, ∀ identifier ∈ argument.identifiers, ∀ global,
            definitions.globalOf? identifier = some global →
              ∃ group, atomicity.groups.groupOf? label.uid = some group := by
  obtain ⟨strategy, hstrategy, hall⟩ := toGo_makesAll hgo
  obtain ⟨function, hfunction, hname, imports, needed, hbody⟩ := hall.makes source hsource
  obtain ⟨code, after, hnoted, hresult, _⟩ := FunctionContext.noted_of_body hbody
  let context := algorithm.context definitions atomicity.groups settings.locking strategy
  have hprepares : context.Prepares imports source :=
    prepares_of_source hresolve hinfer hsource rfl imports
  obtain ⟨label, rfl, hoccurs⟩ := occurs_of_argument hresolve hinfer hsource hstands
  obtain ⟨closing, hcalls, hclosing⟩ := calls_of_stands hprepares hstands hnoted
  obtain ⟨hlabels, _⟩ := occurs_of_source hresolve hinfer hsource
  have hidle : CallsIdle (Statement.listJumpTargets source.body) code :=
    callsIdle_of_flows (FunctionContext.noted_flows hnoted (FunctionContext.noted_fits hnoted))
  refine ⟨function, hfunction, hname, context, rfl, rfl, label, closing, code, rfl, ?_, hcalls,
    ?_, ?_, ?_⟩
  · rw [hresult]
    exact covers_erase _ code
  · exact fun hfollow => hclosing (Statement.stepwise_of_checkLabels hlabels hfollow)
  · exact fun notes point hpath rest hcode => hidle notes point hpath _ rest arguments hcode rfl
  · intro argument hargument identifier hidentifier global hglobal
    exact grouped_of_occurs hresolve hinfer (hoccurs argument hargument identifier hidentifier)
      hglobal

end Algorithm

/-! ## An argument that others write

The processes read the global `x` in the arguments of a call, and the procedure writes it. -/

private def passing : Algorithm :=
  let mark (number : UInt32) : Mark := ⟨⟨number⟩, .unknown⟩
  ⟨"T", [], [⟨⟨1⟩, "x", some (.number ⟨2⟩ 0), .plain, .unknown⟩],
    [⟨⟨3⟩, "Q", [⟨⟨4⟩, "p", none, .plain, .unknown⟩], [],
      [.labeled (mark 5) ⟨⟨6⟩, "c"⟩
        [.assign (mark 7) [⟨.identifier ⟨8⟩ "x", .identifier ⟨9⟩ "p"⟩]]]⟩],
    [⟨⟨10⟩, "P", ⟨11⟩, .range (.number ⟨12⟩ 1) (.number ⟨13⟩ 2), [],
      [.labeled (mark 14) ⟨⟨15⟩, "a"⟩
        [.call (mark 16) "Q" [.identifier ⟨17⟩ "x"]]]⟩]⟩

private def passingCall : Statement := .call ⟨⟨16⟩, .unknown⟩ "Q" [.identifier ⟨17⟩ "x"]

private def passingSource : Source :=
  ⟨"P", ⟨10⟩, [], [.labeled ⟨⟨14⟩, .unknown⟩ ⟨⟨15⟩, "a"⟩ [passingCall]]⟩

private def passingDefinitions : Definitions :=
  ⟨[⟨⟨1⟩, "x", .global .plain, .unknown⟩, ⟨⟨4⟩, "p", .parameter .plain, .unknown⟩,
    ⟨⟨11⟩, "self", .processSelf, .unknown⟩], [(⟨17⟩, ⟨1⟩), (⟨9⟩, ⟨4⟩), (⟨8⟩, ⟨1⟩)]⟩

private def passingAtomicity : Atomicity :=
  ⟨⟨[(⟨15⟩, ⟨0⟩), (⟨6⟩, ⟨0⟩)], [(⟨0⟩, ⟨1⟩)], [(⟨0⟩, ⟨1⟩)]⟩,
    ⟨"T", [⟨⟨0⟩, ["P.a", "Q.c"], ["x"], ["x"]⟩], []⟩, []⟩

private def passingCode : List SectionCode :=
  [.label "a", .leaf ⟨.inProcess, .acquire, ⟨0⟩⟩, .leaf ⟨.inProcess, .release, ⟨0⟩⟩,
    .line "Q(self, x)"]

private def passingProgram : Program :=
  ⟨"T", "main", .none, [.initialized "x" "0"], .mutexes 1,
    [⟨"Q", [("p", "int")], ⟨[.label "c", .leaf ⟨.inProcess, .acquire, ⟨0⟩⟩, .line "x = p",
      .leaf ⟨.inProcess, .release, ⟨0⟩⟩], []⟩⟩, ⟨"P", [], ⟨passingCode, []⟩⟩],
    [.range "P" "1" "2"]⟩

private theorem passing_resolve : passing.resolve = .ok passingDefinitions := by cbv

private theorem passing_infer :
    passing.inferAtomicity passingDefinitions = .ok passingAtomicity := by
  cbv

private theorem passing_toGo :
    passing.toGo passingDefinitions passingAtomicity.groups .default = .ok passingProgram := by
  cbv

private theorem passing_source : passingSource ∈ passing.sources := by
  simp [Algorithm.sources, passing, passingSource, passingCall, Process.source]

private theorem passing_stands :
    passingCall.Stands (some ⟨⟨15⟩, "a"⟩) none passingSource.body :=
  .labeled .here

theorem Algorithm.toGo_calls_passing :
    passing.toGo passingDefinitions passingAtomicity.groups .default = .ok passingProgram ∧
      ∃ code : NotedCode, Covers (· ∈ []) code passingCode ∧
        HeldAtCall [] code ⟨⟨15⟩, "a"⟩ [.identifier ⟨17⟩ "x"] none ∧
        ∃ group, passingAtomicity.groups.groupOf? ⟨15⟩ = some group := by
  refine ⟨passing_toGo, ?_⟩
  obtain ⟨function, hfunction, hname, _, _, _, label, _, code, hlabel, hcovers, _, _, hheld,
    hgrouped⟩ := toGo_calls passing_resolve passing_infer passing_toGo passing_source passing_stands
  cases hlabel
  have hcode : function.body.code = passingCode := by
    rcases List.mem_pair.1 hfunction with rfl | rfl
    · exact absurd hname (by decide)
    · rfl
  have hglobal : passingDefinitions.globalOf? ⟨17⟩ = some ⟨1⟩ := by decide
  rw [hcode] at hcovers
  exact ⟨code, hcovers, hheld, hgrouped _ List.mem_cons_self ⟨17⟩ List.mem_cons_self _ hglobal⟩

/-- The step `a` has group 0, and its path comes to the call line holding nothing. -/
theorem Algorithm.arguments_read_unlocked :
    passing.resolve = .ok passingDefinitions ∧
      passing.inferAtomicity passingDefinitions = .ok passingAtomicity ∧
      passing.toGo passingDefinitions passingAtomicity.groups .default = .ok passingProgram ∧
      passingSource ∈ passing.sources ∧
      passingCall.Stands (some ⟨⟨15⟩, "a"⟩) none passingSource.body ∧
      passingDefinitions.globalOf? ⟨17⟩ = some ⟨1⟩ ∧
      passingAtomicity.groups.groupOf? ⟨15⟩ = some ⟨0⟩ ∧
      ∃ function ∈ passingProgram.functions, function.name = "P" ∧ ∃ passed,
        Go.Path (· ∈ []) function.body.code passed ⟨[.line "Q(self, x)"], []⟩ ∧
          replay none passed = some none := by
  refine ⟨passing_resolve, passing_infer, passing_toGo, passing_source, passing_stands, by decide,
    by decide, ⟨"P", [], ⟨passingCode, []⟩⟩, by simp [passingProgram], rfl, _,
    .step (.step (.step .start .label) .leaf) .leaf, rfl⟩

end PlusCalGo
