import PlusCalGo.Proofs.Go.Faults
import PlusCalGo.Proofs.Go.Pieces

/-!
# Targets of retries

A failed `await` jumps to the label the tracker has. This is the innermost label around it, unless
the step of that label goes on in a section that an earlier label of the same group has opened: then
the jump goes to the earlier label, and the steps in between are run again.
-/

namespace PlusCalGo

namespace Go

/-- The tracker at the beginning of the step of a label that is reached. -/
def Arrival.begun (arrival : Arrival) : Tracker :=
  if arrival.tracker.continues arrival.label.uid then arrival.tracker
  else arrival.tracker.entered arrival.label.uid arrival.label.name

/-- Where a step is retried: at a label of its group. This is its own label, unless the step goes on
in the section of an earlier one. -/
structure Arrival.Retries (arrival : Arrival) (groups : LockGroups) (targets : List String)
    (retried : Label) : Prop where
  group : groups.groupOf? retried.uid = groups.groupOf? arrival.label.uid
  own : retried.name = arrival.label.name ↔ arrival.tracker.continues arrival.label.uid = false
  earlier : arrival.tracker.continues arrival.label.uid = true →
    arrival.tracker.label = some (retried.uid, retried.name)
  alone : groups.groupOf? arrival.label.uid = none ∨ arrival.label.name ∈ targets →
    retried.name = arrival.label.name

section Visits

variable {definitions : Definitions} {targets names : List String} {arrival? : Option Arrival}
  {statements : List Statement} {state : Progress} {visit : Visit}

theorem begun_of_start {label : Label} {reached started : Progress} {opening : NotedCode}
    (h : Noting.start label.uid label.name { reached with labels := label.name :: reached.labels } =
      .ok (opening, started)) : started.tracker = Arrival.begun ⟨label, reached.tracker⟩ := by
  rcases Noting.start_ok h with ⟨hcontinues, _, rfl⟩ | ⟨hcontinues, _, _, rfl⟩
  · exact (if_pos hcontinues).symm
  · exact (if_neg (by simp [hcontinues])).symm

/-- In a body with well-placed labels, the tracker at a statement is the one its step began with. -/
theorem begun_of_visits (h : Visits definitions targets arrival? statements state visit)
    (hsteps : Statement.Throughout Statement.Stepwise statements)
    (hhead : ∀ statement ∈ statements.head?, statement.isLabeled = false →
      ∀ arrival ∈ arrival?, state.tracker = arrival.begun) :
    visit.statement.isLabeled = false →
      ∀ arrival ∈ visit.arrival?, visit.state.tracker = arrival.begun := by
  induction h with
  | here => exact hhead _ rfl
  | @later _ statement rest _ _ _ _ hlower _ ih =>
    refine ih ⟨hsteps.1.tail, hsteps.2.2⟩ ?_
    intro next hnext hlabeled arrival harrival
    obtain ⟨hbefore, hstays⟩ := hsteps.1.head hnext hlabeled
    rw [stays_statement statement hbefore hstays hlower]
    exact hhead statement rfl hbefore arrival harrival
  | labeled _ _ hstart _ ih =>
    refine ih hsteps.2.1 ?_
    intro _ _ _ arrival harrival
    cases harrival
    exact begun_of_start hstart
  | loop _ _ ih => exact ih hsteps.2.1 fun _ _ _ => hhead _ rfl rfl
  | yes _ _ ih => exact ih hsteps.2.1.1 fun _ _ _ => hhead _ rfl rfl
  | no _ _ _ ih => exact ih hsteps.2.1.2 fun _ _ _ => hhead _ rfl rfl
  | @case _ _ earlier cases body _ _ _ _ _ _ hearlier _ ih =>
    have hmem : body ∈ earlier ++ body :: cases := by simp
    have hsame := (carries_cases _ (.refl _) rfl (by simp) (.self _) hearlier).1
    refine ih (hsteps.2.1.mem hmem) fun _ _ _ arrival harrival => ?_
    rw [hsame]
    exact hhead _ rfl rfl arrival harrival
  | inside hbindings _ ih =>
    obtain ⟨rfl, _⟩ := noteBindings_ok hbindings
    exact ih hsteps.2.1 fun _ _ _ => hhead _ rfl rfl

/-- The label of an arrival stands in the statements, and is reached with its tracker. -/
structure Reaches (definitions : Definitions) (targets : List String) (arrival? : Option Arrival)
    (statements : List Statement) (state : Progress) (arrival : Arrival) : Prop where
  visits : ∃ outer mark body front reached,
    Visits definitions targets arrival? statements state outer ∧
      outer.statement = .labeled mark arrival.label body ∧
      (if arrival.label.name ∈ targets then Noting.close else pure []) outer.state =
        .ok (front, reached) ∧
      arrival.label.name ∉ reached.labels ∧ reached.tracker = arrival.tracker

theorem Reaches.of_visits {outer? : Option Arrival} {outer : List Statement} {before : Progress}
    {arrival : Arrival} (h : Reaches definitions targets arrival? statements state arrival)
    (hvisits : ∀ visit, Visits definitions targets arrival? statements state visit →
      Visits definitions targets outer? outer before visit) :
    Reaches definitions targets outer? outer before arrival := by
  obtain ⟨visit, mark, body, front, reached, hvisit, hreached⟩ := h
  exact ⟨visit, mark, body, front, reached, hvisits visit hvisit, hreached⟩

/-- The innermost label around a statement is reached before it, if it is not around all. -/
theorem reaches_of_visits (h : Visits definitions targets arrival? statements state visit) :
    ∀ arrival ∈ visit.arrival?,
      arrival ∈ arrival? ∨ Reaches definitions targets arrival? statements state arrival := by
  induction h with
  | here => exact fun arrival harrival => .inl harrival
  | later hlower _ ih =>
    exact fun arrival harrival =>
      (ih arrival harrival).imp_right fun h => h.of_visits fun _ => .later hlower
  | @labeled _ mark label body _ _ reached _ front _ _ hfront hfresh hstart _ ih =>
    intro arrival harrival
    refine .inr ?_
    rcases ih arrival harrival with hsame | h
    · cases hsame
      exact ⟨_, mark, body, front, reached, .here, rfl, hfront, hfresh, rfl⟩
    · exact h.of_visits fun _ => .labeled hfront hfresh hstart
  | loop htext _ ih =>
    exact fun arrival harrival =>
      (ih arrival harrival).imp_right fun h => h.of_visits fun _ => .loop htext
  | yes htext _ ih =>
    exact fun arrival harrival =>
      (ih arrival harrival).imp_right fun h => h.of_visits fun _ => .yes htext
  | no htext hyes _ ih =>
    exact fun arrival harrival =>
      (ih arrival harrival).imp_right fun h => h.of_visits fun _ => .no htext hyes
  | case hearlier _ ih =>
    exact fun arrival harrival =>
      (ih arrival harrival).imp_right fun h => h.of_visits fun _ => .case hearlier
  | inside hbindings _ ih =>
    exact fun arrival harrival =>
      (ih arrival harrival).imp_right fun h => h.of_visits fun _ => .inside hbindings

/-- A label is reached by a settled tracker that does not have its name. Nothing is open there if
explicit jumps go to it. -/
theorem Reaches.settled {groups : LockGroups} {arrival : Arrival}
    (h : Reaches definitions targets arrival? statements state arrival)
    (hprepared : Prepared definitions names (arrival?.map (·.label)) statements state)
    (hgroups : state.tracker.groups.value = groups) :
    arrival.tracker.Settled ∧ arrival.tracker.groups.value = groups ∧
      (∀ entry ∈ arrival.tracker.label, entry.2 ≠ arrival.label.name) ∧
      (arrival.label.name ∈ targets → arrival.tracker.openGroup = none) := by
  obtain ⟨outer, mark, body, front, reached, hvisits, _, hfront, hfresh, hsame⟩ := h.visits
  obtain ⟨_, houter⟩ := prepared_of_visits hvisits hprepared
  have hcarries : Carries names [] outer.state reached := .reached hfront
  obtain ⟨hsettled, hdeclared, _⟩ := hcarries.anchored houter.anchored
  obtain ⟨_, _, hbefore⟩ := carries_of_visits hvisits (.self _)
  have halike := hcarries.alike.trans hbefore.alike
  rw [hsame] at hsettled hdeclared halike
  refine ⟨hsettled, by rw [halike.groups, hgroups], ?_, ?_⟩
  · intro entry hentry hname
    exact hfresh (hname ▸ hdeclared entry hentry)
  · intro htarget
    rw [if_pos htarget] at hfront
    rw [← hsame, (Noting.close_ok.1 hfront).2]
    rfl

theorem Reaches.retries {groups : LockGroups} {arrival : Arrival} {retried : Label}
    (h : Reaches definitions targets arrival? statements state arrival)
    (hprepared : Prepared definitions names (arrival?.map (·.label)) statements state)
    (hgroups : state.tracker.groups.value = groups)
    (hlabel : arrival.begun.label = some (retried.uid, retried.name)) :
    arrival.Retries groups targets retried := by
  obtain ⟨hsettled, hvalue, hother, hidle⟩ := h.settled hprepared hgroups
  unfold Arrival.begun at hlabel
  cases hcontinues : arrival.tracker.continues arrival.label.uid with
  | false =>
    rw [if_neg (by simp [hcontinues])] at hlabel
    obtain ⟨huid, hname⟩ := Prod.mk.inj (Option.some.inj hlabel)
    exact ⟨by rw [huid], by simp [hname, hcontinues], by simp [hcontinues], fun _ => hname.symm⟩
  | true =>
    rw [if_pos hcontinues] at hlabel
    have hname : retried.name ≠ arrival.label.name := hother _ hlabel
    obtain ⟨group, hopen, hgroup⟩ := Tracker.continues_iff.1 hcontinues
    rw [hvalue] at hgroup
    have hretried : groups.groupOf? retried.uid = some group := by
      rw [← hopen, hsettled, hlabel, Option.bind_some, hvalue]
    refine ⟨hretried.trans hgroup.symm, by simp [hname, hcontinues], fun _ => hlabel, ?_⟩
    intro halone
    rcases halone with hnone | htarget
    · rw [hgroup] at hnone
      cases hnone
    · rw [hidle htarget] at hopen
      cases hopen

end Visits

/-! ## Code of retries -/

/-- The calls that give up the section of a label. -/
def FunctionContext.aborting (context : FunctionContext) (label : Label) : List SectionCall :=
  match context.groups.groupOf? label.uid with
  | some group => [⟨context.strategy, .abort, group⟩]
  | none => []

/-- The code of an `await` that lowering comes to: where its value does not hold, the section of the
label that is retried is given up, and the label is jumped to. -/
structure FunctionContext.Awaits (context : FunctionContext) (imports : Imports) (source : Source)
    (visit : Visit) (value : Expression) (retried : Label) (code : List SectionCode) : Prop where
  visits : context.Visits imports source visit
  stands : retried ∈ Statement.listInnerLabels source.body
  code : ∃ text, value.toGo context.definitions = .ok text ∧
    Code.In (.branch ("!" ++ text)
      ((context.aborting retried).map .leaf ++ [.goto retried.name]) []) code

section Awaits

variable {context : FunctionContext} {imports : Imports} {source : Source}

/-- Every `await` in a source has its code in the function that is made of the source. -/
theorem awaits_of_stands (hprepares : context.Prepares imports source) {mark : Mark}
    {value : Expression} {found? : Option Label}
    (hstands : (Statement.await mark value).Stands found? none source.body)
    {code : NotedCode} {after : Progress}
    (hnoted : context.noted imports source.owner source.locals source.body = .ok (code, after)) :
    ∃ visit retried, visit.label? = found? ∧ visit.statement = .await mark value ∧
      visit.state.tracker.label = some (retried.uid, retried.name) ∧
      context.Awaits imports source visit value retried code.erase := by
  obtain ⟨front, inner, last, _, hinner, _, rfl⟩ := FunctionContext.noted_ok hnoted
  have hstands : (Statement.await mark value).Stands found?
      ((none : Option Arrival).map (·.label)) source.body := hstands
  obtain ⟨visit, hvisits, hfound, hstatement, hlowers⟩ := visits_of_stands hstands hinner
  obtain ⟨names, _, hprepared⟩ := hprepares
  obtain ⟨rest, hvisit⟩ := prepared_of_visits hvisits hprepared
  obtain ⟨labels, hlabels, hcarries⟩ := carries_of_visits hvisits (.self _)
  obtain ⟨pieces, _, hlower, hpieces⟩ := hlowers
  rw [hstatement] at hlower
  obtain ⟨text, uid, name, htext, hlabel, _, rfl⟩ := noteStatement_await_ok hlower
  rcases hcarries.label _ hlabel with hstart | ⟨retried, hretried, hentry⟩
  · cases hstart
  rw [hentry] at hlabel
  have haborting : visit.state.tracker.aborting = context.aborting retried := by
    have hopen : visit.state.tracker.openGroup = context.groups.groupOf? retried.uid := by
      rw [hvisit.anchored.settled, hlabel, Option.bind_some, hcarries.alike.groups]
      rfl
    have hstrategy : visit.state.tracker.strategy.value = context.strategy := by
      rw [hcarries.alike.strategy]
      rfl
    unfold Tracker.aborting FunctionContext.aborting
    rw [hopen]
    cases context.groups.groupOf? retried.uid with
    | none => rfl
    | some group =>
      exact congrArg (fun strategy => [(⟨strategy, .abort, group⟩ : SectionCall)]) hstrategy
  refine ⟨visit, retried, hfound, hstatement, hlabel, hvisits, hlabels retried hretried, text,
    htext, ?_⟩
  have hpiece := hpieces _ (List.mem_cons_of_mem _ List.mem_cons_self)
  have hin := hpiece.mono fun part hmem =>
    List.mem_append_right front (List.mem_append_left (NotedCode.ofCalls last.tracker.closing) hmem)
  apply hin.expand
  have herase : NotedCode.erase (NotedCode.ofCalls visit.state.tracker.aborting ++
      [.leaf (.remark ⟨none, visit.label?, .retries⟩), .goto name]) =
      (context.aborting retried).map .leaf ++ [.goto retried.name] := by
    rw [NotedCode.erase_append, NotedCode.erase_ofCalls, NotedCode.erase_remark,
      NotedCode.erase_goto, NotedCode.erase_nil, haborting, (Prod.mk.inj hentry).2]
  rw [← herase]
  exact List.mem_singleton_self _

end Awaits

end Go

open Go

namespace Algorithm

variable {algorithm : Algorithm} {definitions : Definitions} {atomicity : Atomicity}
  {settings : Settings} {program : Program} {source : Source} {mark : Mark} {value : Expression}
  {found? : Option Label}

/-- Every `await` of an algorithm is in the function of its source. -/
theorem awaits_of_toGo (hresolve : algorithm.resolve = .ok definitions)
    (hinfer : algorithm.inferAtomicity definitions = .ok atomicity)
    (hgo : algorithm.toGo definitions atomicity.groups settings = .ok program)
    (hsource : source ∈ algorithm.sources)
    (hstands : (Statement.await mark value).Stands found? none source.body) :
    ∃ function ∈ program.functions, function.name = source.name ∧
      ∃ context : FunctionContext, context.definitions = definitions ∧
        context.groups = atomicity.groups ∧
        Strategy.ofMode settings.locking atomicity.groups definitions = .ok context.strategy ∧
        ∃ imports visit retried, context.Prepares imports source ∧ visit.label? = found? ∧
          visit.statement = .await mark value ∧
          visit.state.tracker.label = some (retried.uid, retried.name) ∧
          context.Awaits imports source visit value retried function.body.code := by
  obtain ⟨strategy, hstrategy, hall⟩ := toGo_makesAll hgo
  obtain ⟨function, hfunction, hname, imports, needed, hbody⟩ := hall.makes source hsource
  obtain ⟨code, after, hnoted, hresult, _⟩ := FunctionContext.noted_of_body hbody
  let context := algorithm.context definitions atomicity.groups settings.locking strategy
  have hprepares : context.Prepares imports source :=
    prepares_of_source hresolve hinfer hsource rfl imports
  obtain ⟨visit, retried, hfound, hstatement, hlabel, hawaits⟩ :=
    awaits_of_stands hprepares hstands hnoted
  rw [← hresult] at hawaits
  exact ⟨function, hfunction, hname, context, rfl, rfl, hstrategy, imports, visit, retried,
    hprepares, hfound, hstatement, hlabel, hawaits⟩

end Algorithm

/-! ## A step that is not retried

The steps `a` and `b` use the same global. The step `b` goes on in the section of `a`, and its
`await` goes back to `a`, which writes the global again. -/

private def joined : Algorithm :=
  let mark (number : UInt32) : Mark := ⟨⟨number⟩, .unknown⟩
  ⟨"T", [], [⟨⟨1⟩, "x", some (.number ⟨2⟩ 0), .plain, .unknown⟩], [],
    [⟨⟨3⟩, "P", ⟨4⟩, .single (.number ⟨5⟩ 1), [],
      [.labeled (mark 10) ⟨⟨11⟩, "a"⟩
          [.assign (mark 12) [⟨.identifier ⟨13⟩ "x", .number ⟨14⟩ 1⟩]],
        .labeled (mark 20) ⟨⟨21⟩, "b"⟩
          [.await (mark 22) (.binary ⟨23⟩ .equal (.identifier ⟨24⟩ "x") (.number ⟨25⟩ 2))]]⟩]⟩

end PlusCalGo
