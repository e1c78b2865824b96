import PlusCalGo.Proofs.Go.LockBalance
import PlusCalGo.Proofs.Locking.Traces
import PlusCalGo.Proofs.Resolution.Placement

/-!
# Steps under their locks

In a body whose labels are well placed, the tracker has the group of the innermost label open
wherever text is made for a statement that is not a call.
-/

namespace PlusCalGo.Go

/-- What is evaluated is under a label, with its group held, and the identifiers in it occur under
this label. -/
def Note.Protected (groups : LockGroups) (occurs : Label → Uid → Prop) : Note → Prop
  | .remark ⟨held, label?, .evaluates expressions⟩ => ∃ label, label? = some label ∧
    held = groups.groupOf? label.uid ∧
      ∀ expression ∈ expressions, ∀ identifier ∈ expression.identifiers, occurs label identifier
  | _ => True

/-- The tracker has the group of the label open. -/
def Tracker.AtStep (groups : LockGroups) (label? : Option Label) (tracker : Tracker) : Prop :=
  ∀ label, label? = some label → tracker.openGroup = groups.groupOf? label.uid

section Protected

variable {groups : LockGroups} {occurs : Label → Uid → Prop} {label? : Option Label}
  {code : NotedCode} {before after : Progress}

theorem protected_calls (calls : List SectionCall) :
    ∀ note ∈ Code.listLeaves (NotedCode.ofCalls calls), note.Protected groups occurs := by
  intro note hnote
  rw [leaves_ofCalls] at hnote
  obtain ⟨call, _, rfl⟩ := List.mem_map.1 hnote
  trivial

theorem protected_remark {label : Label} {held : Option LockGroup} {expressions : List Expression}
    (hheld : held = groups.groupOf? label.uid)
    (h : ∀ expression ∈ expressions, ∀ identifier ∈ expression.identifiers,
      occurs label identifier) :
    (Note.remark ⟨held, some label, .evaluates expressions⟩).Protected groups occurs :=
  ⟨label, rfl, hheld, h⟩

theorem Evaluates.protected {label : Label} {held : Option LockGroup}
    {property : Expression → Prop} (hcode : Evaluates held (some label) property code)
    (hheld : held = groups.groupOf? label.uid)
    (h : ∀ expression, property expression → ∀ identifier ∈ expression.identifiers,
      occurs label identifier) :
    ∀ note ∈ Code.listLeaves code, note.Protected groups occurs := by
  obtain ⟨lines, rfl, hlines⟩ := hcode
  induction lines with
  | nil => simp [Code.listLeaves]
  | cons line rest ih =>
    have hline := (hlines line List.mem_cons_self).2
    have hrest := ih fun other hother => hlines other (List.mem_cons_of_mem line hother)
    intro note hnote
    rw [List.flatMap_cons, Code.listLeaves_append] at hnote
    rcases List.mem_append.1 hnote with hnote | hnote
    · have hremark : note = .remark ⟨held, some label, .evaluates line.expressions⟩ := by
        simpa [Evaluation.code, Code.listLeaves, Code.leaves] using hnote
      rw [hremark]
      exact protected_remark hheld fun expression hexpression =>
        h expression (hline expression hexpression)
    · exact hrest note hnote

/-- Starting the step of a label opens its group, or finds it open. -/
theorem atStep_of_start {label : Label} {name : String}
    (h : Noting.start label.uid name before = .ok (code, after))
    (hsteady : before.tracker.Steady groups) :
    after.tracker.Steady groups ∧ after.tracker.AtStep groups (some label) := by
  rcases Noting.start_ok h with ⟨hcontinues, _, rfl⟩ | ⟨_, _, _, rfl⟩
  · refine ⟨hsteady, ?_⟩
    intro other hother
    cases hother
    have hsame : after.tracker.isOpen = true ∧
        after.tracker.openGroup = after.tracker.groups.value.groupOf? label.uid := by
      simpa [Tracker.continues] using hcontinues
    rw [hsame.2, hsteady.1]
  · refine ⟨hsteady.entered label.uid name, ?_⟩
    intro other hother
    cases hother
    change before.tracker.groups.value.groupOf? label.uid = _
    rw [hsteady.1]

theorem protected_start {label : Uid} {name : String}
    (h : Noting.start label name before = .ok (code, after)) :
    ∀ note ∈ Code.listLeaves code, note.Protected groups occurs := by
  rcases Noting.start_ok h with ⟨_, rfl, _⟩ | ⟨_, _, rfl, _⟩
  · simp [Code.listLeaves]
  · exact protected_calls _

theorem protected_endLoop {entry : Option (Uid × String)}
    (h : Noting.endLoop entry before = .ok (code, after)) :
    ∀ note ∈ Code.listLeaves code, note.Protected groups occurs := by
  cases entry with
  | none =>
    obtain ⟨rfl, rfl⟩ := Noting.close_ok.1 h
    exact protected_calls _
  | some entry => exact protected_start h

theorem protected_append {front back : NotedCode}
    (hfront : ∀ note ∈ Code.listLeaves front, note.Protected groups occurs)
    (hback : ∀ note ∈ Code.listLeaves back, note.Protected groups occurs) :
    ∀ note ∈ Code.listLeaves (front ++ back), note.Protected groups occurs := by
  intro note hnote
  rw [Code.listLeaves_append] at hnote
  rcases List.mem_append.1 hnote with hnote | hnote
  · exact hfront note hnote
  · exact hback note hnote

/-- Closing at the end of a branch does not evaluate anything. -/
theorem protected_closeIf {noting : Noting NotedCode} {closeSection : Bool}
    (h : (noting ++ if closeSection then Noting.close else pure []) before = .ok (code, after)) :
    ∃ front last, noting before = .ok (front, last) ∧
      ((∀ note ∈ Code.listLeaves front, note.Protected groups occurs) →
        ∀ note ∈ Code.listLeaves code, note.Protected groups occurs) ∧
      (closeSection = false → after = last) := by
  obtain ⟨front, last, hfront, ⟨_, rfl, rfl⟩ | ⟨hclose, rfl, rfl⟩⟩ := Noting.closeIf_ok h
  · exact ⟨_, _, hfront, fun hprotected => hprotected, fun _ => rfl⟩
  · refine ⟨_, _, hfront, fun hprotected => protected_append hprotected (protected_calls _), ?_⟩
    simp [hclose]

/-! ## Statements -/

private theorem leaves_retry {calls : List SectionCall} {name : String} {note : Note}
    (hnote : note ∈ Code.listLeaves (NotedCode.ofCalls calls ++
      [.leaf (.remark ⟨none, label?, .retries⟩), .goto name])) :
    note.Protected groups occurs := by
  refine protected_append (protected_calls calls) ?_ note hnote
  simp [Code.listLeaves, Code.leaves, Note.Protected]

mutual

/-- All text of a statement is made under its lock, and a statement after which no label is needed
stays under it. -/
theorem protected_statement {definitions : Definitions} {targets : List String}
    {label? : Option Label} (statement : Statement) {before after : Progress} {code : NotedCode}
    (h : noteStatement definitions targets label? statement before = .ok (code, after))
    (hsteady : before.tracker.Steady groups) (hsteps : statement.Nested Statement.Stepwise)
    (haccesses : (statement.accesses label?).All (Access.Occurs occurs))
    (hstep : statement.isLabeled = false → before.tracker.AtStep groups label?) :
    (∀ note ∈ Code.listLeaves code, note.Protected groups occurs) ∧
      (statement.isLabeled = false → statement.needsLabelAfter = false →
        after.tracker.AtStep groups label?) := by
  cases statement with
  | labeled mark label body =>
    obtain ⟨front, reached, opening, started, inner, hfront, _, hstart, hinner, rfl⟩ :=
      noteStatement_labeled_ok h
    refine ⟨?_, by simp [Statement.isLabeled]⟩
    have hreached : reached.tracker.Steady groups ∧
        ∀ note ∈ Code.listLeaves front, note.Protected groups occurs := by
      split at hfront
      · obtain ⟨rfl, rfl⟩ := Noting.close_ok.1 hfront
        exact ⟨hsteady.idle, protected_calls _⟩
      · obtain ⟨rfl, rfl⟩ := Noting.pure_ok.1 hfront
        exact ⟨hsteady, by simp [Code.listLeaves]⟩
    obtain ⟨hstarted, hentered⟩ := atStep_of_start hstart hreached.1
    have hbody := protected_statements body hinner hstarted hsteps.1 hsteps.2 haccesses
      fun _ _ _ => hentered
    apply protected_append hreached.2
    intro note hnote
    simp only [Code.listLeaves, Code.leaves, List.mem_append, List.mem_singleton,
      Code.listLeaves_append, List.nil_append] at hnote
    rcases hnote with rfl | hnote | hnote
    · trivial
    · exact protected_start hstart note hnote
    · exact hbody.1 note hnote
  | whileDo mark condition body =>
    obtain ⟨text, inner, between, back, _, hinner, hback, hcheck, rfl⟩ :=
      noteStatement_whileDo_ok h
    obtain ⟨label, rfl, hall⟩ := Statement.under_all haccesses
    obtain ⟨hcondition, hbodyAll⟩ := AccessTrace.all_append.1 hall
    have hbefore := hstep rfl
    have hbody := protected_statements body hinner hsteady hsteps.1 hsteps.2 hbodyAll
      fun _ _ _ => hbefore
    have hsame := (Tracker.checkCompatible_ok hcheck).1
    refine ⟨?_, fun _ _ other hother => by rw [hsame]; exact hbefore other hother⟩
    intro note hnote
    simp only [Code.listLeaves, Code.leaves, List.mem_append, List.mem_singleton,
      Code.listLeaves_append, List.nil_append, List.append_nil] at hnote
    rcases hnote with rfl | hnote | hnote
    · exact protected_remark (hbefore label rfl) (by simpa using reading_occurs.1 hcondition)
    · exact hbody.1 note hnote
    · exact protected_endLoop hback note hnote
  | ifElse mark condition yes no =>
    obtain ⟨text, yesCode, yesLast, noCode, noLast, _, hyes, hno, _, rfl, rfl⟩ :=
      noteStatement_ifElse_ok h
    obtain ⟨label, rfl, hall⟩ := Statement.under_all haccesses
    obtain ⟨hcondition, hbranches⟩ := AccessTrace.all_append.1 hall
    obtain ⟨hyesAll, hnoAll⟩ := AccessTrace.all_append.1 hbranches
    have hbefore := hstep rfl
    obtain ⟨_, yesEnd, hyes, hyesCode, hyesLast⟩ := protected_closeIf hyes
    obtain ⟨_, noEnd, hno, hnoCode, _⟩ := protected_closeIf hno
    have hyes := protected_statements yes hyes hsteady hsteps.1.1 hsteps.1.2 hyesAll
      fun _ _ _ => hbefore
    have hno := protected_statements no hno hsteady hsteps.2.1 hsteps.2.2 hnoAll
      fun _ _ _ => hbefore
    refine ⟨?_, fun _ hneeds => ?_⟩
    · intro note hnote
      simp only [Code.listLeaves, Code.leaves, List.mem_append, List.mem_singleton,
        List.append_nil] at hnote
      rcases hnote with rfl | hnote | hnote
      · exact protected_remark (hbefore label rfl) (by simpa using reading_occurs.1 hcondition)
      · exact hyesCode hyes.1 note hnote
      · exact hnoCode hno.1 note hnote
    · have hstays : (Statement.anyTransfersControl yes || Statement.anyTransfersControl no) =
          false := hneeds
      rw [hyesLast hstays]
      exact hyes.2 (Bool.or_eq_false_iff.1 hstays).1 hbefore
  | either mark cases =>
    obtain ⟨codes, first, last, hcases, ⟨_, rfl⟩, rfl⟩ := noteStatement_either_ok h
    obtain ⟨label, rfl, hall⟩ := Statement.under_all haccesses
    have hbefore := hstep rfl
    obtain ⟨hlast, hcodes, hend⟩ := protected_cases cases hcases hsteady hsteps hall hbefore
    refine ⟨?_, fun _ hneeds => ?_⟩
    · intro note hnote
      simp only [Code.listLeaves, Code.leaves, List.mem_append, List.mem_singleton,
        List.append_nil] at hnote
      rcases hnote with rfl | hnote
      · exact protected_remark (hbefore label rfl) (by simp)
      · exact hcodes note hnote
    · rw [hlast]
      exact hend hneeds hneeds (by simp)
  | assign mark pairs =>
    obtain ⟨⟨_, rfl⟩, lines, hcode, hlines⟩ := noteStatement_assign_ok h
    obtain ⟨label, rfl, hall⟩ := Statement.under_all haccesses
    refine ⟨?_, fun _ _ => hstep rfl⟩
    have hprotected : ∀ note ∈ Code.listLeaves lines, note.Protected groups occurs := by
      apply hlines.protected (hstep rfl label rfl)
      intro expression hin
      obtain ⟨pair, hpair, hexpression⟩ := hin
      have hpairAll := AccessTrace.all_concat.1 hall _ (List.mem_map_of_mem hpair)
      obtain ⟨hlhs, hrhs⟩ := AccessTrace.all_append.1 hpairAll
      rcases hexpression with rfl | rfl
      · exact writing_occurs hlhs
      · exact reading_occurs.1 hrhs
    rcases hcode with rfl | rfl
    · exact hprotected
    · simpa [Code.listLeaves, Code.leaves] using hprotected
  | leave mark =>
    obtain ⟨rfl, rfl⟩ := noteStatement_leave_ok h
    refine ⟨protected_append (protected_calls _) ?_, by simp [Statement.needsLabelAfter]⟩
    simp [Code.listLeaves, Code.leaves]
  | skip mark =>
    obtain ⟨rfl, rfl⟩ := noteStatement_skip_ok h
    exact ⟨by simp [Code.listLeaves], fun hlabel _ => hstep hlabel⟩
  | call mark target arguments =>
    obtain ⟨text, _, rfl, rfl⟩ := noteStatement_call_ok h
    refine ⟨protected_append (protected_calls _) ?_, by simp [Statement.needsLabelAfter]⟩
    simp [Code.listLeaves, Code.leaves, Note.Protected]
  | macroCall mark target arguments => cases h
  | withDo mark bindings body =>
    obtain ⟨front, inner, _, hfront, hinner, rfl⟩ := noteStatement_withDo_ok h
    obtain ⟨label, rfl, hall⟩ := Statement.under_all haccesses
    obtain ⟨hbindings, hbodyAll⟩ := AccessTrace.all_append.1 hall
    have hbefore := hstep rfl
    have hbody := protected_statements body hinner hsteady hsteps.1 hsteps.2 hbodyAll
      fun _ _ _ => hbefore
    have hvalues : ∀ note ∈ Code.listLeaves front, note.Protected groups occurs := by
      apply hfront.protected (hbefore label rfl)
      intro expression hin
      obtain ⟨decl, hdecl, hvalue⟩ := hin
      refine reading_occurs.1 (AccessTrace.all_concat.1 hbindings _ ?_)
      exact List.mem_filterMap.2 ⟨decl, hdecl, by rw [hvalue]; rfl⟩
    refine ⟨?_, fun _ hneeds => hbody.2 hneeds hbefore⟩
    simpa [Code.listLeaves, Code.leaves] using protected_append hvalues hbody.1
  | print mark value =>
    obtain ⟨⟨_, rfl⟩, hlines⟩ := noteStatement_print_ok h
    obtain ⟨label, rfl, hall⟩ := Statement.under_all haccesses
    refine ⟨hlines.protected (hstep rfl label rfl) ?_, fun _ _ => hstep rfl⟩
    intro expression hexpression
    rw [hexpression]
    exact reading_occurs.1 hall
  | assert mark value =>
    obtain ⟨condition, text, _, rfl, rfl⟩ := noteStatement_assert_ok h
    obtain ⟨label, rfl, hall⟩ := Statement.under_all haccesses
    refine ⟨?_, fun _ _ => hstep rfl⟩
    intro note hnote
    simp only [Code.listLeaves, Code.leaves, List.append_nil, List.mem_singleton] at hnote
    rw [hnote]
    exact protected_remark (hstep rfl label rfl) (by simpa using reading_occurs.1 hall)
  | await mark value =>
    obtain ⟨text, retried, name, _, _, rfl, rfl⟩ := noteStatement_await_ok h
    obtain ⟨label, rfl, hall⟩ := Statement.under_all haccesses
    refine ⟨?_, fun _ _ => hstep rfl⟩
    intro note hnote
    rcases List.mem_append.1 hnote with hnote | hnote
    · rw [List.mem_singleton.1 hnote]
      exact protected_remark (hstep rfl label rfl) (by simpa using reading_occurs.1 hall)
    · simp only [Code.listLeaves, Code.leaves, List.append_nil] at hnote
      exact leaves_retry hnote
  | goto mark target =>
    rcases noteStatement_goto_ok h with ⟨rfl, rfl⟩ | ⟨rfl, rfl⟩
    · refine ⟨protected_append (protected_calls _) ?_, by simp [Statement.needsLabelAfter]⟩
      simp [Code.listLeaves, Code.leaves]
    · refine ⟨protected_append (protected_calls _) ?_, by simp [Statement.needsLabelAfter]⟩
      simp [Code.listLeaves, Code.leaves]

theorem protected_statements {definitions : Definitions} {targets : List String}
    {label? : Option Label} (statements : List Statement) {before after : Progress}
    {code : NotedCode}
    (h : noteStatements definitions targets label? statements before = .ok (code, after))
    (hsteady : before.tracker.Steady groups) (hstepwise : Statement.Stepwise statements)
    (hsteps : Statement.ListNested Statement.Stepwise statements)
    (haccesses : (Statement.listAccesses label? statements).All (Access.Occurs occurs))
    (hstep : ∀ statement ∈ statements.head?, statement.isLabeled = false →
      before.tracker.AtStep groups label?) :
    (∀ note ∈ Code.listLeaves code, note.Protected groups occurs) ∧
      (Statement.anyTransfersControl statements = false → before.tracker.AtStep groups label? →
        after.tracker.AtStep groups label?) := by
  cases statements with
  | nil =>
    obtain ⟨rfl, rfl⟩ := Noting.pure_ok.1 h
    exact ⟨by simp [Code.listLeaves], fun _ hbefore => hbefore⟩
  | cons statement rest =>
    obtain ⟨front, between, back, hfront, hback, rfl⟩ := Noting.append_ok.1 h
    obtain ⟨hstatementAll, hrestAll⟩ := AccessTrace.all_append.1 haccesses
    have hbetween := (bridges_statement (fun _ => False) groups statement hfront hsteady).1
    obtain ⟨hprotected, hstay⟩ := protected_statement statement hfront hsteady hsteps.1
      hstatementAll (hstep statement rfl)
    obtain ⟨hothers, hend⟩ := protected_statements rest hback hbetween hstepwise.tail hsteps.2
      hrestAll fun next hnext hlabel =>
        let ⟨hprevious, hneeds⟩ := hstepwise.head hnext hlabel
        hstay hprevious hneeds
    refine ⟨protected_append hprotected hothers, fun htransfers hbefore => ?_⟩
    simp only [Statement.anyTransfersControl, Bool.or_eq_false_iff] at htransfers
    obtain ⟨hlabel, hneeds⟩ := Statement.stays_of_not_transfersControl htransfers.1
    exact hend htransfers.2 (hstay hlabel hneeds)

theorem protected_cases {definitions : Definitions} {targets : List String}
    {label? : Option Label} {closeSection : Bool} {first result : Option Tracker}
    (cases : List (List Statement)) {before after : Progress} {codes : List NotedCode}
    (h : noteCases definitions targets label? closeSection first cases before =
      .ok ((codes, result), after)) (hsteady : before.tracker.Steady groups)
    (hsteps : Statement.CasesNested Statement.Stepwise cases)
    (haccesses : (Statement.casesAccesses label? cases).All (Access.Occurs occurs))
    (hstep : before.tracker.AtStep groups label?) :
    after.tracker = before.tracker ∧
      (∀ note ∈ Code.casesLeaves codes, note.Protected groups occurs) ∧
      (closeSection = false → Statement.anyCaseTransfersControl cases = false →
        (∀ tracker ∈ first, tracker.AtStep groups label?) →
          (result.getD before.tracker).AtStep groups label?) := by
  cases cases with
  | nil =>
    obtain ⟨heq, rfl⟩ := Noting.pure_ok.1 h
    injection heq with hcodes hresult
    subst hcodes hresult
    refine ⟨rfl, by simp [Code.casesLeaves], fun _ _ hfirst => ?_⟩
    cases result with
    | none => exact hstep
    | some tracker => exact hfirst tracker rfl
  | cons body rest =>
    obtain ⟨bodyCode, last, others, hbody, _, hrest, rfl⟩ := noteCases_cons_ok h
    obtain ⟨hbodyAll, hrestAll⟩ := AccessTrace.all_append.1 haccesses
    obtain ⟨_, bodyEnd, hbody, hbodyCode, hlast⟩ := protected_closeIf hbody
    have hbody := protected_statements body hbody hsteady hsteps.1.1 hsteps.1.2 hbodyAll
      fun _ _ _ => hstep
    obtain ⟨hafter, hothers, hend⟩ :=
      protected_cases rest hrest hsteady hsteps.2 hrestAll hstep
    refine ⟨hafter, ?_, fun hclose htransfers hfirst => ?_⟩
    · intro note hnote
      rcases List.mem_append.1 hnote with hnote | hnote
      · exact hbodyCode hbody.1 note hnote
      · exact hothers note hnote
    · simp only [Statement.anyCaseTransfersControl, Bool.or_eq_false_iff] at htransfers
      apply hend hclose htransfers.2
      intro tracker htracker
      cases htracker
      cases first with
      | none =>
        rw [Option.getD_none, hlast hclose]
        exact hbody.2 htransfers.1 hstep
      | some tracker => exact hfirst tracker rfl

end

end Protected

end PlusCalGo.Go
