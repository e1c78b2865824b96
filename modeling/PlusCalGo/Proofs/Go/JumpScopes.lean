import PlusCalGo.Proofs.Go.Anchors
import PlusCalGo.Proofs.Go.Erasure
import PlusCalGo.Proofs.Go.Functions
import PlusCalGo.Proofs.Go.Jumps
import PlusCalGo.Proofs.Go.LabelNames
import PlusCalGo.Proofs.Go.LockBalance

/-!
# Scopes of jumps

Which jumps the code of a body makes, and which labels Go lets each of them reach, told from the
statements alone. A labeled statement stands in the block of its label, and the bodies of loops,
branches, choices and bindings are blocks of their own.
-/

namespace PlusCalGo

open Go

/-- The label that a step begins at when a label is reached: the label itself, unless the step goes
on in the section of its group. Where jumps go to the label, the section before it is closed. -/
def LockGroups.begin (groups : LockGroups) (targets : List String) (step : Option (Uid × String))
    (label : Label) : Option (Uid × String) :=
  let step := if label.name ∈ targets then none else step
  match step.bind fun entry => groups.groupOf? entry.1 with
  | some group =>
    if groups.groupOf? label.uid = some group then step else some (label.uid, label.name)
  | none => some (label.uid, label.name)

namespace Statement

mutual

/-- The labels that stand in the block of the statement. -/
def blockLabels : Statement → List String
  | labeled _ label body => label.name :: listBlockLabels body
  | whileDo .. | ifElse .. | either .. | assign .. | leave _ | skip _ | call .. | macroCall ..
  | withDo .. | print .. | assert .. | await .. | goto .. => []

def listBlockLabels : List Statement → List String
  | [] => []
  | statement :: rest => statement.blockLabels ++ listBlockLabels rest

end

section Jumps

variable (groups : LockGroups) (targets : List String)

mutual

/-- The label of the step after a statement, from the one before it. -/
def stepAfter (step : Option (Uid × String)) : Statement → Option (Uid × String)
  | labeled _ label body => listStepAfter (groups.begin targets step label) body
  | ifElse _ _ yes no => if anyTransfersControl yes || anyTransfersControl no then none else step
  | either _ cases => if anyCaseTransfersControl cases then none else step
  | withDo _ _ body => listStepAfter step body
  | leave _ | call .. | goto .. => none
  | whileDo .. | assign .. | skip _ | macroCall .. | print .. | assert .. | await .. => step

def listStepAfter (step : Option (Uid × String)) : List Statement → Option (Uid × String)
  | [] => step
  | statement :: rest => listStepAfter (statement.stepAfter step) rest

end

mutual

/-- The jumps of a statement in a step, given the labels that are visible around it: an `await` goes
back to the label of the step. -/
def jumpsFrom (step : Option (Uid × String)) (visible : List String) : Statement → List Jump
  | labeled _ label body => listJumpsFrom (groups.begin targets step label) visible body
  | whileDo _ _ body | withDo _ _ body => listJumpsFrom step (listBlockLabels body ++ visible) body
  | ifElse _ _ yes no =>
    listJumpsFrom step (listBlockLabels yes ++ visible) yes ++
      listJumpsFrom step (listBlockLabels no ++ visible) no
  | either _ cases => casesJumpsFrom step visible cases
  | await .. => (step.map fun entry => ⟨entry.2, visible⟩).toList
  | goto _ target => if target = Label.done then [] else [⟨target, visible⟩]
  | assign .. | leave _ | skip _ | call .. | macroCall .. | print .. | assert .. => []

def listJumpsFrom (step : Option (Uid × String)) (visible : List String) :
    List Statement → List Jump
  | [] => []
  | statement :: rest =>
    statement.jumpsFrom step visible ++
      listJumpsFrom (statement.stepAfter groups targets step) visible rest

def casesJumpsFrom (step : Option (Uid × String)) (visible : List String) :
    List (List Statement) → List Jump
  | [] => []
  | body :: rest =>
    listJumpsFrom step (listBlockLabels body ++ visible) body ++ casesJumpsFrom step visible rest

end

end Jumps

/-- The jumps of the body of a function, which begins outside of any step. -/
def bodyJumps (groups : LockGroups) (body : List Statement) : List Jump :=
  listJumpsFrom groups (listJumpTargets body) none (listBlockLabels body) body

end Statement

namespace Go

/-! ## Stretches of code -/

/-- Lowering goes from one state to another one, with code that has these labels in its own block
and these jumps. -/
structure Emits (own : List String) (made : List String → List Jump) (before : Progress)
    (code : NotedCode) (after : Progress) : Prop where
  labels : Code.blockLabels code = own
  jumps : ∀ visible, Code.listJumps visible code = made visible
  targets : ∀ visible, after.targets = ((made visible).map (·.name)).reverse ++ before.targets

section Emits

variable {own more : List String} {made others : List String → List Jump}
  {before between after : Progress} {code front back : NotedCode}

namespace Emits

theorem append (hfront : Emits own made before front between)
    (hback : Emits more others between back after) :
    Emits (own ++ more) (fun visible => made visible ++ others visible) before (front ++ back)
      after where
  labels := by rw [Code.blockLabels_append, hfront.labels, hback.labels]
  jumps := fun visible => by rw [Code.listJumps_append, hfront.jumps, hback.jumps]
  targets := by
    intro visible
    rw [hback.targets visible, hfront.targets visible, List.map_append, List.reverse_append,
      List.append_assoc]

/-- Only the jumps count, of the state at the end. -/
theorem congr (h : Emits own made before code after) {other : Progress}
    (hother : other.targets = after.targets) : Emits own made before code other :=
  ⟨h.labels, h.jumps, fun visible => hother.trans (h.targets visible)⟩

theorem straight (hcode : Code.Straight code) (hsame : after.targets = before.targets) :
    Emits [] (fun _ => []) before code after :=
  ⟨hcode.2.1, hcode.2.2, fun _ => hsame⟩

/-- The code becomes a block of its own. -/
theorem block (h : Emits own made before code after) :
    Emits [] (fun visible => made (own ++ visible)) before [.block code] after where
  labels := rfl
  jumps := by
    intro visible
    rw [Code.listJumps, Code.jumps, h.labels, h.jumps, Code.listJumps, List.append_nil]
  targets := fun visible => h.targets (own ++ visible)

theorem loop (h : Emits own made before code after) :
    Emits [] (fun visible => made (own ++ visible)) before [.loop code] after :=
  ⟨rfl, h.block.jumps, h.block.targets⟩

theorem branch {condition : String} (hyes : Emits own made before front between)
    (hno : Emits more others between back after) :
    Emits [] (fun visible => made (own ++ visible) ++ others (more ++ visible)) before
      [.branch condition front back] after where
  labels := rfl
  jumps := by
    intro visible
    rw [Code.listJumps, Code.jumps, hyes.labels, hyes.jumps, hno.labels, hno.jumps, Code.listJumps,
      List.append_nil]
  targets := by
    intro visible
    rw [hno.targets (more ++ visible), hyes.targets (own ++ visible), List.map_append,
      List.reverse_append, List.append_assoc]

end Emits

theorem straight_ofCalls (calls : List SectionCall) :
    Code.Straight (NotedCode.ofCalls calls) :=
  .map fun _ => ⟨rfl, rfl, fun _ => rfl⟩

theorem Emits.ofCalls (calls : List SectionCall) (hsame : after.targets = before.targets) :
    Emits [] (fun _ => []) before (NotedCode.ofCalls calls) after :=
  .straight (straight_ofCalls calls) hsame

theorem Evaluates.straight {held : Option LockGroup} {label? : Option Label}
    {property : Expression → Prop} (h : Evaluates held label? property code) :
    Code.Straight code := by
  obtain ⟨lines, rfl, -⟩ := h
  induction lines with
  | nil => exact .nil
  | cons line rest ih =>
    refine Code.Straight.append ?_ ih
    exact ⟨rfl, rfl, fun _ => rfl⟩

theorem PlainLines.straight (h : PlainLines code) : Code.Straight code := by
  obtain ⟨texts, rfl, -⟩ := h
  exact .map fun _ => ⟨rfl, rfl, fun _ => rfl⟩

theorem straight_of_start {label : Uid} {name : String}
    (h : Noting.start label name before = .ok (code, after)) :
    Code.Straight code ∧ after.targets = before.targets := by
  rcases Noting.start_ok h with ⟨_, rfl, rfl⟩ | ⟨_, _, rfl, rfl⟩
  · exact ⟨.nil, rfl⟩
  · exact ⟨straight_ofCalls _, rfl⟩

theorem straight_of_endLoop {entry : Option (Uid × String)}
    (h : Noting.endLoop entry before = .ok (code, after)) :
    Code.Straight code ∧ after.targets = before.targets := by
  cases entry with
  | none =>
    obtain ⟨rfl, rfl⟩ := Noting.close_ok.1 h
    exact ⟨straight_ofCalls _, rfl⟩
  | some entry => exact straight_of_start h

theorem Emits.ofCloseIf {noting : Noting NotedCode} {closeSection : Bool}
    (h : (noting ++ if closeSection then Noting.close else pure []) before = .ok (code, after))
    (hcode : ∀ code after, noting before = .ok (code, after) →
      Emits own made before code after) : Emits own made before code after := by
  obtain ⟨front, last, hfront, ⟨_, rfl, rfl⟩ | ⟨_, rfl, rfl⟩⟩ := Noting.closeIf_ok h
  · exact hcode _ _ hfront
  · have hclosing : Emits [] (fun _ => []) last (NotedCode.ofCalls last.tracker.closing)
        { last with tracker := last.tracker.idle } := .straight (straight_ofCalls _) rfl
    simpa using (hcode _ _ hfront).append hclosing

/-! ## Statements -/

/-- The tracker comes to a label and takes over the step that begins there. -/
theorem label_begin {groups : LockGroups} {targets : List String} {label : Label}
    {reached started : Progress} {opening : NotedCode} {step : Option (Uid × String)}
    (hreached : reached.tracker.label = if label.name ∈ targets then none else step)
    (hsettled : reached.tracker.Settled) (hgroups : reached.tracker.groups.value = groups)
    (hstart : Noting.start label.uid label.name
      { reached with labels := label.name :: reached.labels } = .ok (opening, started)) :
    started.tracker.label = groups.begin targets step label := by
  unfold LockGroups.begin
  simp only [← hreached]
  have hopen : reached.tracker.openGroup =
      reached.tracker.label.bind fun entry => groups.groupOf? entry.1 := hgroups ▸ hsettled
  rcases Noting.start_ok hstart with ⟨hcontinues, _, rfl⟩ | ⟨hcontinues, _, _, rfl⟩
  · obtain ⟨group, hgroup, hlabel⟩ := Tracker.continues_iff.1 hcontinues
    simp only [hgroups] at hlabel
    rw [← hopen]
    simp only at hgroup
    rw [hgroup]
    exact (if_pos hlabel).symm
  · split
    · rename_i group hgroup
      rw [if_neg]
      · rfl
      · intro hlabel
        have htrue : reached.tracker.continues label.uid = true :=
          Tracker.continues_iff.2 ⟨group, hopen.trans hgroup, by rw [hgroups, hlabel]⟩
        rw [Tracker.continues] at htrue hcontinues
        simp_all
    · rfl

section Statements

variable {definitions : Definitions} {groups : LockGroups} {targets names : List String}
  {label? : Option Label} {mark : Mark}

/-- Ahead of a label that some jump goes to, the step ends. -/
theorem front_of_label {label : Label}
    (h : (if label.name ∈ targets then Noting.close else pure []) before = .ok (code, after)) :
    Code.Straight code ∧ after.targets = before.targets ∧
      after.tracker.label = if label.name ∈ targets then none else before.tracker.label := by
  split at h
  · obtain ⟨rfl, rfl⟩ := Noting.close_ok.1 h
    exact ⟨straight_ofCalls _, rfl, (if_pos ‹_›).symm⟩
  · obtain ⟨rfl, rfl⟩ := Noting.pure_ok.1 h
    exact ⟨.nil, rfl, (if_neg ‹_›).symm⟩

/-- The step behind a choice. -/
theorem label_of_cases {cases : List (List Statement)} {codes : List NotedCode}
    {first : Option Tracker} {last : Progress}
    (h : noteCases definitions targets label? (Statement.anyCaseTransfersControl cases) none cases
      before = .ok ((codes, first), last)) :
    (first.getD last.tracker).label =
      (Statement.either mark cases).stepAfter groups targets before.tracker.label := by
  obtain ⟨hlast, hfirst⟩ := tracker_of_cases id rfl (by simp) h
  rw [Statement.stepAfter]
  cases first with
  | none =>
    -- Only a choice without cases leaves no tracker.
    cases cases with
    | nil => exact congrArg Tracker.label hlast
    | cons body rest =>
      obtain ⟨_, _, _, _, _, hrest, _⟩ := noteCases_cons_ok h
      cases noteCases_some_ok hrest
  | some first =>
    rw [Option.getD_some, hfirst first rfl]
    split <;> rfl

theorem emits_await {value : Expression}
    (h : noteStatement definitions targets label? (.await mark value) before = .ok (code, after)) :
    Emits [] ((Statement.await mark value).jumpsFrom groups targets before.tracker.label) before
      code after ∧ after.tracker.label = before.tracker.label := by
  obtain ⟨text, label, name, _, hlabel, rfl, rfl⟩ := noteStatement_await_ok h
  refine ⟨⟨rfl, fun visible => ?_, fun visible => ?_⟩, rfl⟩
  · have hcalls := straight_ofCalls before.tracker.aborting
    simp [Code.listJumps, Code.jumps, hcalls.2.1, hcalls.2.2, Code.blockLabels,
      Statement.jumpsFrom, hlabel]
  · simp [Statement.jumpsFrom, hlabel]

/-- A jump to the end of the function returns from it. -/
theorem emits_goto {target : String}
    (h : noteStatement definitions targets label? (.goto mark target) before = .ok (code, after)) :
    Emits [] ((Statement.goto mark target).jumpsFrom groups targets before.tracker.label) before
      code after ∧ after.tracker.label = none := by
  simp only [noteStatement, Noting.append_ok, Noting.close_ok] at h
  obtain ⟨_, closed, _, ⟨rfl, rfl⟩, hjump, rfl⟩ := h
  have hcloses : Emits [] (fun _ => []) before (NotedCode.ofCalls before.tracker.closing)
      { before with tracker := before.tracker.idle } := .ofCalls _ rfl
  split at hjump
  · rename_i hdone
    obtain ⟨rfl, rfl⟩ := Noting.emit_ok.1 hjump
    have hnone (visible : List String) : Statement.jumpsFrom groups targets before.tracker.label
        visible (.goto mark target) = [] := if_pos hdone
    rw [funext hnone]
    exact ⟨hcloses.append (.straight ⟨rfl, rfl, fun _ => rfl⟩ rfl), rfl⟩
  · rename_i hdone
    obtain ⟨rfl, rfl⟩ := Noting.goTo_ok.1 hjump
    have hone (visible : List String) : Statement.jumpsFrom groups targets before.tracker.label
        visible (.goto mark target) = [⟨target, visible⟩] := if_neg hdone
    rw [funext hone]
    have hgoes : Emits [] (fun visible => [⟨target, visible⟩])
        { before with tracker := before.tracker.idle } [.goto target]
        { before with tracker := before.tracker.idle, targets := target :: before.targets } :=
      ⟨rfl, fun _ => rfl, fun _ => rfl⟩
    exact ⟨hcloses.append hgoes, rfl⟩

mutual

/-- The code of a statement has the labels and the jumps that the statement says. -/
theorem emits_statement {label? : Option Label} (statement : Statement)
    {before after : Progress} {code : NotedCode}
    (hjumps : JumpsTo names statement.jumpTargets) (hanchored : before.Anchored names)
    (hgroups : before.tracker.groups.value = groups)
    (h : noteStatement definitions targets label? statement before = .ok (code, after)) :
    Emits statement.blockLabels (statement.jumpsFrom groups targets before.tracker.label) before
        code after ∧
      after.tracker.label = statement.stepAfter groups targets before.tracker.label := by
  cases statement with
  | labeled mark label body =>
    obtain ⟨front, reached, opening, started, inner, hfront, _, hstart, hinner, rfl⟩ :=
      noteStatement_labeled_ok h
    have hreached : Carries names [] before reached := .reached hfront
    have hstarted := hreached.append (.arrive hstart)
    obtain ⟨hfrontCode, hfrontTargets, hfrontLabel⟩ := front_of_label hfront
    have hbegin := label_begin hfrontLabel (hreached.anchored hanchored).settled
      ((congrArg Handle.value hreached.alike.groups).trans hgroups) hstart
    obtain ⟨hopeningCode, hopeningTargets⟩ := straight_of_start hstart
    obtain ⟨hbody, hafter⟩ := emits_statements body hjumps (hstarted.anchored hanchored)
      ((congrArg Handle.value hstarted.alike.groups).trans hgroups) hinner
    rw [hbegin] at hbody hafter
    have harrival : Emits [label.name] (fun _ => []) reached [.leaf (.remark
        ⟨reached.tracker.openGroup, some label, .arrives label
          !reached.tracker.continues label.uid⟩), .label label.name]
        { reached with labels := label.name :: reached.labels } := ⟨rfl, fun _ => rfl, fun _ => rfl⟩
    have hall := (Emits.straight hfrontCode hfrontTargets).append
      (harrival.append ((Emits.straight hopeningCode hopeningTargets).append hbody))
    exact ⟨hall, hafter⟩
  | whileDo mark condition body =>
    obtain ⟨text, inner, between, back, _, hinner, hback, _, rfl⟩ := noteStatement_whileDo_ok h
    obtain ⟨hbody, _⟩ := emits_statements body hjumps hanchored hgroups hinner
    obtain ⟨hbackCode, hbackTargets⟩ := straight_of_endLoop hback
    refine ⟨?_, congrArg Tracker.label (tracker_of_loop h)⟩
    have htest : Emits [] (fun _ => []) before [.leaf (.remark ⟨before.tracker.openGroup, label?,
        .evaluates [condition]⟩), .branch ("!" ++ text) [.line "break"] []] before :=
      .straight ⟨rfl, rfl, fun _ => rfl⟩ rfl
    have hall := (htest.append (hbody.append (Emits.straight hbackCode hbackTargets))).loop
    simpa [Statement.blockLabels, Statement.jumpsFrom] using hall
  | ifElse mark condition yes no =>
    obtain ⟨text, yesCode, yesLast, noCode, noLast, _, hyes, hno, _, rfl, rfl⟩ :=
      noteStatement_ifElse_ok h
    obtain ⟨hyesJumps, hnoJumps⟩ := JumpsTo.append.1 hjumps
    have hcarries := Carries.ofCloseIf hyes fun _ _ => carries_statements yes hyesJumps
    have hlabel := tracker_of_branch (fun hopen => (Bool.or_eq_false_iff.1 hopen).1) hyes
    have hyes := Emits.ofCloseIf hyes fun _ _ hyes =>
      (emits_statements yes hyesJumps hanchored hgroups hyes).1
    have hno := Emits.ofCloseIf hno fun _ _ hno =>
      (emits_statements no hnoJumps (hcarries.putBack.anchored hanchored) hgroups hno).1
    have hno : Emits (Statement.listBlockLabels no)
        (Statement.listJumpsFrom groups targets before.tracker.label · no) yesLast noCode noLast :=
      ⟨hno.labels, hno.jumps, hno.targets⟩
    have hcondition : Emits [] (fun _ => []) before [.leaf (.remark
        ⟨before.tracker.openGroup, label?, .evaluates [condition]⟩)] before :=
      .straight ⟨rfl, rfl, fun _ => rfl⟩ rfl
    refine ⟨(hcondition.append (hyes.branch hno)).congr rfl, ?_⟩
    change yesLast.tracker.label = _
    rw [hlabel, Statement.stepAfter]
    split <;> rfl
  | either mark cases =>
    obtain ⟨codes, first, last, hcases, ⟨_, rfl⟩, rfl⟩ := noteStatement_either_ok h
    obtain ⟨hcodes, htargets⟩ :=
      emits_cases cases (.refl before) rfl hanchored hgroups hjumps hcases
    refine ⟨⟨rfl, fun visible => ?_, htargets⟩, label_of_cases hcases⟩
    rw [Code.listJumps, Code.listJumps, Code.jumps, Code.jumps, Code.listJumps, hcodes,
      List.append_nil]
    rfl
  | assign mark pairs =>
    obtain ⟨⟨_, rfl⟩, lines, hcode, hlines⟩ := noteStatement_assign_ok h
    refine ⟨?_, rfl⟩
    rcases hcode with rfl | rfl
    · exact .straight hlines.straight rfl
    · have hlines : Emits [] (fun _ => []) before lines before := .straight hlines.straight rfl
      exact hlines.block.congr rfl
  | leave mark =>
    obtain ⟨rfl, rfl⟩ := noteStatement_leave_ok h
    exact ⟨.straight ((straight_ofCalls _).append ⟨rfl, rfl, fun _ => rfl⟩) rfl, rfl⟩
  | skip mark =>
    obtain ⟨rfl, rfl⟩ := noteStatement_skip_ok h
    exact ⟨.straight .nil rfl, rfl⟩
  | call mark target arguments =>
    obtain ⟨text, _, rfl, rfl⟩ := noteStatement_call_ok h
    exact ⟨.straight ((straight_ofCalls _).append ⟨rfl, rfl, fun _ => rfl⟩) rfl, rfl⟩
  | macroCall mark target arguments => cases h
  | withDo mark bindings body =>
    obtain ⟨front, inner, _, hfront, hinner, rfl⟩ := noteStatement_withDo_ok h
    obtain ⟨hbody, hafter⟩ := emits_statements body hjumps hanchored hgroups hinner
    have hfront : Emits [] (fun _ => []) before front before := .straight hfront.straight rfl
    exact ⟨(hfront.append hbody).block, hafter⟩
  | print mark value =>
    obtain ⟨⟨_, rfl⟩, hlines⟩ := noteStatement_print_ok h
    exact ⟨.straight hlines.straight rfl, rfl⟩
  | assert mark value =>
    obtain ⟨condition, text, _, rfl, rfl⟩ := noteStatement_assert_ok h
    exact ⟨.straight ⟨rfl, rfl, fun _ => rfl⟩ rfl, rfl⟩
  | await mark value => exact emits_await h
  | goto mark target => exact emits_goto h

theorem emits_statements {label? : Option Label} (statements : List Statement)
    {before after : Progress} {code : NotedCode}
    (hjumps : JumpsTo names (Statement.listJumpTargets statements))
    (hanchored : before.Anchored names) (hgroups : before.tracker.groups.value = groups)
    (h : noteStatements definitions targets label? statements before = .ok (code, after)) :
    Emits (Statement.listBlockLabels statements)
        (Statement.listJumpsFrom groups targets before.tracker.label · statements) before code
        after ∧
      after.tracker.label =
        Statement.listStepAfter groups targets before.tracker.label statements := by
  cases statements with
  | nil =>
    obtain ⟨rfl, rfl⟩ := Noting.pure_ok.1 h
    exact ⟨.straight .nil rfl, rfl⟩
  | cons statement rest =>
    obtain ⟨hstatementJumps, hrestJumps⟩ := JumpsTo.append.1 hjumps
    obtain ⟨front, between, back, hfront, hback, rfl⟩ := Noting.append_ok.1 h
    have hcarries := carries_statement statement hstatementJumps hfront
    obtain ⟨hstatement, hbetween⟩ :=
      emits_statement statement hstatementJumps hanchored hgroups hfront
    obtain ⟨hrest, hafter⟩ := emits_statements rest hrestJumps (hcarries.anchored hanchored)
      ((congrArg Handle.value hcarries.alike.groups).trans hgroups) hback
    rw [hbetween] at hrest hafter
    exact ⟨hstatement.append hrest, hafter⟩

theorem emits_cases {label? : Option Label} {closeSection : Bool} {first result : Option Tracker}
    (cases : List (List Statement)) {earlier : List Label} {origin before after : Progress}
    {codes : List NotedCode} (hearlier : Carries names earlier origin before)
    (hbefore : before.tracker = origin.tracker) (hanchored : origin.Anchored names)
    (hgroups : origin.tracker.groups.value = groups)
    (hjumps : JumpsTo names (Statement.casesJumpTargets cases))
    (h : noteCases definitions targets label? closeSection first cases before =
      .ok ((codes, result), after)) :
    (∀ visible, Code.casesJumps visible codes =
      Statement.casesJumpsFrom groups targets origin.tracker.label visible cases) ∧
    ∀ visible, after.targets = ((Statement.casesJumpsFrom groups targets origin.tracker.label
      visible cases).map (·.name)).reverse ++ before.targets := by
  cases cases with
  | nil =>
    obtain ⟨heq, rfl⟩ := Noting.pure_ok.1 h
    injection heq with hcodes _
    subst hcodes
    exact ⟨fun _ => rfl, fun _ => rfl⟩
  | cons body rest =>
    obtain ⟨hbodyJumps, hrestJumps⟩ := JumpsTo.append.1 hjumps
    obtain ⟨bodyCode, last, others, hbody, _, hrest, rfl⟩ := noteCases_cons_ok h
    have hlast := hearlier.append
      (Carries.ofCloseIf hbody fun _ _ => carries_statements body hbodyJumps)
    have hback : Carries names (earlier ++ Statement.listInnerLabels body) origin
        { last with tracker := before.tracker } := hbefore ▸ hlast.putBack
    have hbody := Emits.ofCloseIf hbody fun _ _ hbody =>
      (emits_statements body hbodyJumps (hearlier.anchored hanchored) (by rw [hbefore, hgroups])
        hbody).1
    obtain ⟨hothers, htargets⟩ :=
      emits_cases rest hback hbefore hanchored hgroups hrestJumps hrest
    rw [hbefore] at hbody
    refine ⟨fun visible => ?_, fun visible => ?_⟩
    · rw [Code.casesJumps, hbody.labels, hbody.jumps, hothers, Statement.casesJumpsFrom]
    · rw [htargets visible, hbody.targets (Statement.listBlockLabels body ++ visible),
        Statement.casesJumpsFrom, List.map_append, List.reverse_append, List.append_assoc]

end

end Statements

end Emits

end Go

end PlusCalGo
