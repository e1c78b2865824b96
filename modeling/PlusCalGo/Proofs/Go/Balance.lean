import PlusCalGo.Proofs.Go.Lifting
import PlusCalGo.Proofs.Go.LockFlow
import PlusCalGo.Proofs.Go.Success

/-!
# What the tracker knows

The group a tracker has open is the group that every path holds. Each step of lowering with remarks
makes code that takes the tracker's group before it to the tracker's group after it.
-/

namespace PlusCalGo.Go

/-! ## Calls in order -/

/-- What is held after a call, if it can be made: a group is acquired while nothing is held, and
left when it is the one that is held. -/
def SectionCall.run? (call : SectionCall) (held : Option LockGroup) : Option (Option LockGroup) :=
  match call.action with
  | .acquire => if held = none then some (some call.group) else none
  | .release | .abort => if held = some call.group then some none else none

/-- What is held after some calls, if all of them can be made. -/
def replay (held : Option LockGroup) : List SectionCall → Option (Option LockGroup)
  | [] => some held
  | call :: rest => (call.run? held).bind fun held => replay held rest

theorem replay_append (held : Option LockGroup) (first second : List SectionCall) :
    replay held (first ++ second) = (replay held first).bind fun held => replay held second := by
  induction first generalizing held with
  | nil => rfl
  | cons call rest ih =>
    simp only [List.cons_append, replay]
    cases call.run? held with
    | none => rfl
    | some held => exact ih held

/-! ## The rule of remarks -/

/-- Procedures are called and steps are retried with nothing held. -/
def Remark.Idle (remark : Remark) : Prop :=
  match remark.subject with
  | .calls _ | .retries => remark.held = none
  | .evaluates _ | .arrives _ _ => True

/-- Calls change what is held, and remarks are right about it. -/
def Note.Moves : Note → Option LockGroup → Option LockGroup → Prop
  | .call made, before, after => made.run? before = some after
  | .remark made, before, after => before = made.held ∧ after = before ∧ made.Idle

/-- The flow of lock groups when jumps land on some labels. -/
def lockRule (lands : String → Prop) : FlowRule Note := ⟨Note.Moves, lands⟩

/-- The labels that jumps land on are reached with nothing held. -/
def Note.Fits (lands : String → Prop) : Note → Prop
  | .remark ⟨held, _, .arrives label _⟩ => lands label.name → held = none
  | _ => True

theorem flows_line {κ : Type} {rule : FlowRule κ} {exit before : Option LockGroup} {text : String}
    (h : PlainLine text) : (Code.line text).Flows rule exit before before := by
  rw [Code.Flows, if_neg h.1, if_neg h.2]

theorem listFlows_line {κ : Type} {rule : FlowRule κ} {exit before : Option LockGroup}
    {text : String} (h : PlainLine text) :
    Code.ListFlows rule exit before [.line text] before :=
  ⟨before, flows_line h, rfl⟩

theorem follows_replay {notes : List Note} {before after : Option LockGroup}
    (h : Follows Note.Moves notes before after) :
    replay before (callsOf notes) = some after := by
  induction notes generalizing before with
  | nil => exact congrArg some (Eq.symm h)
  | cons note rest ih =>
    obtain ⟨between, hnote, hrest⟩ := h
    cases note with
    | call call =>
      have hcall : call.run? before = some between := hnote
      rw [callsOf, replay, hcall]
      exact ih hrest
    | remark remark =>
      obtain ⟨_, rfl, _⟩ := hnote
      exact ih hrest

/-! ## Trackers of a run -/

/-- An open group is that of the label the step began at. -/
def Tracker.Steady (groups : LockGroups) (tracker : Tracker) : Prop :=
  tracker.groups.value = groups ∧ ∀ group, tracker.openGroup = some group →
    ∃ label name, tracker.label = some (label, name) ∧ groups.groupOf? label = some group

/-- The code goes from a state to another one: it takes the group open in the one to the group open
in the other, whatever loop it stands in. -/
def Bridges (lands : String → Prop) (groups : LockGroups) (before : Progress) (code : NotedCode)
    (after : Progress) : Prop :=
  before.tracker.Steady groups → after.tracker.Steady groups ∧
    ((∀ note ∈ Code.listLeaves code, note.Fits lands) → ∀ exit,
      Code.ListFlows (lockRule lands) exit before.tracker.openGroup code after.tracker.openGroup)

section Bridges

variable {lands : String → Prop} {groups : LockGroups} {before between after : Progress}
  {code front back : NotedCode}

theorem Tracker.Steady.idle {tracker : Tracker} (h : tracker.Steady groups) :
    tracker.idle.Steady groups :=
  ⟨h.1, by simp [Tracker.idle]⟩

theorem Tracker.Steady.entered {tracker : Tracker} (h : tracker.Steady groups) (label : Uid)
    (name : String) : (tracker.entered label name).Steady groups := by
  refine ⟨h.1, fun group hgroup => ⟨label, name, rfl, ?_⟩⟩
  rw [← h.1]
  exact hgroup

theorem listFlows_closing {tracker : Tracker} {exit : Option LockGroup}
    (h : tracker.Steady groups) :
    Code.ListFlows (lockRule lands) exit tracker.openGroup (NotedCode.ofCalls tracker.closing)
      none := by
  cases hgroup : tracker.openGroup with
  | none =>
    have hclosing : tracker.closing = [] := by simp [Tracker.closing, hgroup]
    rw [hclosing]
    rfl
  | some group =>
    obtain ⟨label, name, hlabel, _⟩ := h.2 group hgroup
    have hclosing : tracker.closing = [⟨tracker.strategy.value, .release, group⟩] := by
      simp [Tracker.closing, hgroup, hlabel]
    rw [hclosing]
    exact ⟨none, by simp [Code.Flows, lockRule, Note.Moves, SectionCall.run?], rfl⟩

theorem listFlows_aborting {tracker : Tracker} {exit : Option LockGroup} :
    Code.ListFlows (lockRule lands) exit tracker.openGroup (NotedCode.ofCalls tracker.aborting)
      none := by
  cases hgroup : tracker.openGroup with
  | none =>
    have haborting : tracker.aborting = [] := by simp [Tracker.aborting, hgroup]
    rw [haborting]
    rfl
  | some group =>
    have haborting : tracker.aborting = [⟨tracker.strategy.value, .abort, group⟩] := by
      simp [Tracker.aborting, hgroup]
    rw [haborting]
    exact ⟨none, by simp [Code.Flows, lockRule, Note.Moves, SectionCall.run?], rfl⟩

theorem listFlows_opening {tracker : Tracker} {exit : Option LockGroup} (label : Uid)
    (name : String) :
    Code.ListFlows (lockRule lands) exit none (NotedCode.ofCalls (tracker.opening label))
      (tracker.entered label name).openGroup := by
  change Code.ListFlows (lockRule lands) exit none (NotedCode.ofCalls (tracker.opening label))
    (tracker.groups.value.groupOf? label)
  cases hgroup : tracker.groups.value.groupOf? label with
  | none =>
    have hopening : tracker.opening label = [] := by simp [Tracker.opening, hgroup]
    rw [hopening]
    rfl
  | some group =>
    have hopening : tracker.opening label = [⟨tracker.strategy.value, .acquire, group⟩] := by
      simp [Tracker.opening, hgroup]
    rw [hopening]
    exact ⟨some group, by simp [Code.Flows, lockRule, Note.Moves, SectionCall.run?], rfl⟩

namespace Bridges

theorem refl (before : Progress) : Bridges lands groups before [] before :=
  fun hsteady => ⟨hsteady, fun _ _ => rfl⟩

theorem append (hfront : Bridges lands groups before front between)
    (hback : Bridges lands groups between back after) :
    Bridges lands groups before (front ++ back) after := by
  intro hsteady
  obtain ⟨hbetween, hfront⟩ := hfront hsteady
  obtain ⟨hafter, hback⟩ := hback hbetween
  refine ⟨hafter, fun hfits exit => ?_⟩
  rw [Code.listLeaves_append] at hfits
  have hfront := hfront (fun note hnote => hfits note (List.mem_append_left _ hnote)) exit
  have hback := hback (fun note hnote => hfits note (List.mem_append_right _ hnote)) exit
  exact Code.listFlows_append.2 ⟨_, hfront, hback⟩

/-- Only the tracker counts. -/
theorem congr (h : Bridges lands groups before code after) {other : Progress}
    (hother : other.tracker = after.tracker) : Bridges lands groups before code other := by
  unfold Bridges
  rw [hother]
  exact h

/-- Code that is there with a group open and leaves it open. -/
theorem stay (hflows : ∀ exit, (∀ note ∈ Code.listLeaves code, note.Fits lands) →
      Code.ListFlows (lockRule lands) exit before.tracker.openGroup code before.tracker.openGroup) :
    Bridges lands groups before code before :=
  fun hsteady => ⟨hsteady, fun hfits exit => hflows exit hfits⟩

theorem closing : Bridges lands groups before (NotedCode.ofCalls before.tracker.closing)
    { before with tracker := before.tracker.idle } :=
  fun hsteady => ⟨hsteady.idle, fun _ _ => listFlows_closing hsteady⟩

theorem ofStart {label : Uid} {name : String}
    (h : Noting.start label name before = .ok (code, after)) :
    Bridges lands groups before code after := by
  rcases Noting.start_ok h with ⟨_, rfl, rfl⟩ | ⟨_, _, rfl, rfl⟩
  · exact refl after
  · intro hsteady
    refine ⟨hsteady.entered label name, fun _ exit => ?_⟩
    have hsplit : NotedCode.ofCalls (before.tracker.closing ++ before.tracker.opening label) =
        NotedCode.ofCalls before.tracker.closing ++
          NotedCode.ofCalls (before.tracker.opening label) := List.map_append
    rw [hsplit]
    exact Code.listFlows_append.2 ⟨none, listFlows_closing hsteady, listFlows_opening label name⟩

theorem ofEndLoop {entry : Option (Uid × String)}
    (h : Noting.endLoop entry before = .ok (code, after)) :
    Bridges lands groups before code after := by
  cases entry with
  | none =>
    obtain ⟨rfl, rfl⟩ := Noting.close_ok.1 h
    exact closing
  | some entry => exact ofStart h

/-- Code that may be closed at its end. -/
theorem ofCloseIf {noting : Noting NotedCode} {closeSection : Bool}
    (h : (noting ++ if closeSection then Noting.close else pure []) before = .ok (code, after))
    (hcode : ∀ code after, noting before = .ok (code, after) →
      Bridges lands groups before code after) :
    Bridges lands groups before code after := by
  obtain ⟨front, last, hfront, ⟨_, rfl, rfl⟩ | ⟨_, rfl, rfl⟩⟩ := Noting.closeIf_ok h
  · exact hcode _ _ hfront
  · exact (hcode _ _ hfront).append closing

end Bridges

/-- The remark of what a tracker has open is right, whatever is evaluated. -/
theorem flows_evaluates {label? : Option Label} {expressions : List Expression}
    {held exit : Option LockGroup} :
    (Code.leaf (Note.remark ⟨held, label?, .evaluates expressions⟩)).Flows (lockRule lands) exit
      held held :=
  ⟨rfl, rfl, trivial⟩

theorem Evaluates.flows {held exit : Option LockGroup} {label? : Option Label}
    {property : Expression → Prop} (h : Evaluates held label? property code) :
    Code.ListFlows (lockRule lands) exit held code held := by
  obtain ⟨lines, rfl, hlines⟩ := h
  induction lines with
  | nil => rfl
  | cons line rest ih =>
    have hline := (hlines line List.mem_cons_self).1
    have hrest := ih fun other hother => hlines other (List.mem_cons_of_mem line hother)
    exact ⟨held, flows_evaluates, held, flows_line hline, hrest⟩

/-! ## Statements -/

private theorem bridges_arrival {label : Label} {enters : Bool} {reached next : Progress}
    (hnext : next.tracker = reached.tracker) :
    Bridges lands groups reached [.leaf (.remark ⟨reached.tracker.openGroup, some label,
      .arrives label enters⟩), .label label.name] next := by
  refine Bridges.congr (Bridges.stay fun exit hfits => ?_) hnext
  have hlabel : lands label.name → reached.tracker.openGroup = none :=
    hfits (.remark ⟨reached.tracker.openGroup, some label, .arrives label enters⟩)
      (by simp [Code.listLeaves, Code.leaves])
  exact ⟨_, ⟨rfl, rfl, trivial⟩, _, ⟨hlabel, rfl⟩, rfl⟩

private theorem bridges_loop {condition : String} {note : Code Note}
    (hnote : ∀ exit, note.Flows (lockRule lands) exit before.tracker.openGroup
      before.tracker.openGroup)
    (hinner : Bridges lands groups before code after)
    (hsame : after.tracker.openGroup = before.tracker.openGroup) :
    Bridges lands groups before
      [.loop (note :: .branch condition [.line "break"] [] :: code)] after := by
  intro hsteady
  obtain ⟨hafter, hinner⟩ := hinner hsteady
  refine ⟨hafter, fun hfits exit => ?_⟩
  have hbody : ∀ note ∈ Code.listLeaves code, note.Fits lands := by
    intro other hother
    exact hfits other (by simp [Code.listLeaves, Code.leaves, hother])
  have hinner := hinner hbody before.tracker.openGroup
  rw [hsame] at hinner ⊢
  -- `break` stands at the top of a round, where what is held is what the loop was come to with.
  have hleave : (Code.line (κ := Note) "break").Flows (lockRule lands) before.tracker.openGroup
      before.tracker.openGroup before.tracker.openGroup := by
    simp [Code.Flows]
  refine ⟨_, ⟨⟨_, hnote _, _, ⟨⟨_, hleave, rfl⟩, rfl⟩, hinner⟩, rfl⟩, rfl⟩

private theorem bridges_branch {condition : String} {label? : Option Label}
    {expressions : List Expression} {yes no : NotedCode} {yesLast noLast : Progress}
    (hyes : Bridges lands groups before yes yesLast)
    (hno : Bridges lands groups { yesLast with tracker := before.tracker } no noLast)
    (hsame : yesLast.tracker.openGroup = noLast.tracker.openGroup) :
    Bridges lands groups before
      [.leaf (.remark ⟨before.tracker.openGroup, label?, .evaluates expressions⟩),
        .branch condition yes no] yesLast := by
  intro hsteady
  obtain ⟨hafter, hyes⟩ := hyes hsteady
  obtain ⟨_, hno⟩ := hno hsteady
  refine ⟨hafter, fun hfits exit => ?_⟩
  have hyes := hyes (fun note hnote => hfits note (by simp [Code.listLeaves, Code.leaves, hnote]))
    exit
  have hno := hno (fun note hnote => hfits note (by simp [Code.listLeaves, Code.leaves, hnote]))
    exit
  rw [← hsame] at hno
  exact ⟨_, flows_evaluates, _, ⟨hyes, hno⟩, rfl⟩

/-- A section is closed before control leaves. -/
private theorem bridges_exit {exit : Code Note}
    (hexit : exit = .line "return" ∨ ∃ name, exit = .goto name)
    (hafter : after.tracker = before.tracker.idle) :
    Bridges lands groups before (NotedCode.ofCalls before.tracker.closing ++ [exit]) after := by
  refine Bridges.congr (Bridges.closing.append (Bridges.stay fun outer _ => ?_)) hafter
  rcases hexit with rfl | ⟨name, rfl⟩
  · exact ⟨none, by simp [Code.Flows, Tracker.idle], rfl⟩
  · exact ⟨none, rfl, rfl⟩

mutual

theorem bridges_statement (lands : String → Prop) (groups : LockGroups)
    {definitions : Definitions} {targets : List String} {label? : Option Label}
    (statement : Statement) {before after : Progress} {code : NotedCode}
    (h : noteStatement definitions targets label? statement before = .ok (code, after)) :
    Bridges lands groups before code after := by
  cases statement with
  | labeled mark label body =>
    obtain ⟨front, reached, opening, started, inner, hfront, _, hstart, hinner, rfl⟩ :=
      noteStatement_labeled_ok h
    have hfront : Bridges lands groups before front reached := by
      split at hfront
      · obtain ⟨rfl, rfl⟩ := Noting.close_ok.1 hfront
        exact .closing
      · obtain ⟨rfl, rfl⟩ := Noting.pure_ok.1 hfront
        exact .refl reached
    have hbody := bridges_statements lands groups body hinner
    exact hfront.append ((bridges_arrival rfl).append ((Bridges.ofStart hstart).append hbody))
  | whileDo mark condition body =>
    obtain ⟨text, inner, between, back, _, hinner, hback, hcheck, rfl⟩ :=
      noteStatement_whileDo_ok h
    have hbody := (bridges_statements lands groups body hinner).append (.ofEndLoop hback)
    exact bridges_loop (fun _ => flows_evaluates) hbody (Tracker.checkCompatible_ok hcheck).1
  | ifElse mark condition yes no =>
    obtain ⟨text, yesCode, yesLast, noCode, noLast, _, hyes, hno, hcheck, rfl, rfl⟩ :=
      noteStatement_ifElse_ok h
    have hyes := Bridges.ofCloseIf hyes fun _ _ => bridges_statements lands groups yes
    have hno := Bridges.ofCloseIf hno fun _ _ => bridges_statements lands groups no
    exact (bridges_branch hyes hno (Tracker.checkCompatible_ok hcheck).1).congr rfl
  | either mark cases =>
    obtain ⟨codes, first, last, hcases, ⟨_, rfl⟩, rfl⟩ := noteStatement_either_ok h
    intro hsteady
    obtain ⟨hlast, hfirst, hcodes⟩ := bridges_cases lands groups cases hcases hsteady (by simp)
    rw [hlast]
    refine ⟨hfirst, fun hfits exit => ?_⟩
    refine ⟨_, flows_evaluates, _, Code.casesFlow_iff.2 fun body hbody => ?_, rfl⟩
    refine hcodes body hbody (fun note hnote => hfits note ?_) exit
    simp [Code.listLeaves, Code.leaves, Code.mem_casesLeaves hbody hnote]
  | assign mark pairs =>
    obtain ⟨⟨_, rfl⟩, lines, hcode, hlines⟩ := noteStatement_assign_ok h
    refine Bridges.congr (Bridges.stay fun exit _ => ?_) rfl
    rcases hcode with rfl | rfl
    · exact hlines.flows
    · exact ⟨_, hlines.flows, rfl⟩
  | leave mark =>
    obtain ⟨rfl, rfl⟩ := noteStatement_leave_ok h
    exact bridges_exit (.inl rfl) rfl
  | skip mark =>
    obtain ⟨rfl, rfl⟩ := noteStatement_skip_ok h
    exact .refl after
  | call mark target arguments =>
    obtain ⟨text, htext, rfl, rfl⟩ := noteStatement_call_ok h
    refine Bridges.closing.append (Bridges.stay fun exit _ => ?_)
    exact ⟨none, ⟨rfl, rfl, rfl⟩, listFlows_line htext⟩
  | macroCall mark target arguments => cases h
  | withDo mark bindings body =>
    obtain ⟨front, inner, _, hfront, hinner, rfl⟩ := noteStatement_withDo_ok h
    intro hsteady
    obtain ⟨hafter, hinner⟩ := bridges_statements lands groups body hinner hsteady
    refine ⟨hafter, fun hfits exit => ?_⟩
    have hleaves : ∀ note ∈ Code.listLeaves inner, note.Fits lands := by
      intro note hnote
      exact hfits note (by simp [Code.listLeaves, Code.leaves, hnote])
    exact ⟨_, Code.listFlows_append.2 ⟨_, hfront.flows, hinner hleaves exit⟩, rfl⟩
  | print mark value =>
    obtain ⟨⟨_, rfl⟩, hlines⟩ := noteStatement_print_ok h
    exact Bridges.congr (Bridges.stay fun exit _ => hlines.flows) rfl
  | assert mark value =>
    obtain ⟨condition, text, htext, rfl, rfl⟩ := noteStatement_assert_ok h
    refine Bridges.stay fun exit _ => ?_
    exact ⟨_, flows_evaluates, _, ⟨listFlows_line htext, rfl⟩, rfl⟩
  | await mark value =>
    obtain ⟨text, label, name, _, _, rfl, rfl⟩ := noteStatement_await_ok h
    refine Bridges.congr (Bridges.stay fun exit _ => ?_) rfl
    -- Nothing comes after the jump, so its end may be taken to hold what is held without a retry.
    have hretry : Code.ListFlows (lockRule lands) exit before.tracker.openGroup
        (NotedCode.ofCalls before.tracker.aborting ++
          [.leaf (.remark ⟨none, label?, .retries⟩), .goto name]) before.tracker.openGroup :=
      Code.listFlows_append.2 ⟨none, listFlows_aborting, none, ⟨rfl, rfl, rfl⟩, _, rfl, rfl⟩
    exact ⟨_, flows_evaluates, _, ⟨hretry, rfl⟩, rfl⟩
  | goto mark target =>
    rcases noteStatement_goto_ok h with ⟨rfl, rfl⟩ | ⟨rfl, rfl⟩
    · exact bridges_exit (.inl rfl) rfl
    · exact bridges_exit (.inr ⟨target, rfl⟩) rfl

theorem bridges_statements (lands : String → Prop) (groups : LockGroups)
    {definitions : Definitions} {targets : List String} {label? : Option Label}
    (statements : List Statement) {before after : Progress} {code : NotedCode}
    (h : noteStatements definitions targets label? statements before = .ok (code, after)) :
    Bridges lands groups before code after := by
  cases statements with
  | nil =>
    obtain ⟨rfl, rfl⟩ := Noting.pure_ok.1 h
    exact .refl after
  | cons statement rest =>
    obtain ⟨front, between, back, hfront, hback, rfl⟩ := Noting.append_ok.1 h
    exact (bridges_statement lands groups statement hfront).append
      (bridges_statements lands groups rest hback)

/-- All cases of a choice go from one group to one group. -/
theorem bridges_cases (lands : String → Prop) (groups : LockGroups)
    {definitions : Definitions} {targets : List String} {label? : Option Label}
    {closeSection : Bool} {first result : Option Tracker} (cases : List (List Statement))
    {before after : Progress} {codes : List NotedCode}
    (h : noteCases definitions targets label? closeSection first cases before =
      .ok ((codes, result), after)) (hsteady : before.tracker.Steady groups)
    (hfirst : ∀ tracker ∈ first, tracker.Steady groups) :
    after.tracker = before.tracker ∧ (result.getD before.tracker).Steady groups ∧
      ∀ body ∈ codes, (∀ note ∈ Code.listLeaves body, note.Fits lands) → ∀ exit,
        Code.ListFlows (lockRule lands) exit before.tracker.openGroup body
          (result.getD before.tracker).openGroup := by
  cases cases with
  | nil =>
    obtain ⟨heq, rfl⟩ := Noting.pure_ok.1 h
    injection heq with hcodes hresult
    subst hcodes hresult
    refine ⟨rfl, ?_, by simp⟩
    cases result with
    | none => exact hsteady
    | some first => exact hfirst first rfl
  | cons body rest =>
    obtain ⟨bodyCode, last, others, hbody, hcheck, hrest, rfl⟩ := noteCases_cons_ok h
    obtain ⟨hlast, hbody⟩ := Bridges.ofCloseIf hbody
      (fun _ _ => bridges_statements lands groups body) hsteady
    have hresult := noteCases_some_ok hrest
    have hsame : last.tracker.openGroup = (first.getD last.tracker).openGroup := by
      cases first with
      | none => rfl
      | some first => exact (Tracker.checkCompatible_ok (hcheck first rfl)).1.symm
    have hnext : ∀ tracker ∈ some (first.getD last.tracker), tracker.Steady groups := by
      intro tracker htracker
      cases htracker
      cases first with
      | none => exact hlast
      | some first => exact hfirst first rfl
    obtain ⟨hafter, hsteadyResult, hothers⟩ := bridges_cases lands groups rest hrest hsteady hnext
    refine ⟨hafter, hsteadyResult, ?_⟩
    intro chosen hchosen hfits exit
    rcases List.mem_cons.1 hchosen with rfl | hchosen
    · rw [hresult, Option.getD_some, ← hsame]
      exact hbody hfits exit
    · exact hothers chosen hchosen hfits exit

end

end Bridges

end PlusCalGo.Go
