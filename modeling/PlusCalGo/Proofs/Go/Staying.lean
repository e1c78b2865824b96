import PlusCalGo.Proofs.Go.Faults
import PlusCalGo.Proofs.Go.Path
import PlusCalGo.Proofs.Go.Pieces

/-!
# Statements that keep control

A statement that neither transfers control nor holds a label leaves the tracker as it was. The end
of a loop in it has nothing to do, so locks are touched and jumps are made where an `await` retries
its step, and nowhere else.
-/

namespace PlusCalGo

/-- More statements may follow. -/
theorem Statement.Stands.append {statement : Statement} {found? label? : Option Label}
    {statements : List Statement} (h : statement.Stands found? label? statements)
    (more : List Statement) : statement.Stands found? label? (statements ++ more) := by
  induction h with
  | here => exact .here
  | later _ ih => exact .later ih
  | labeled h _ => exact .labeled h
  | loop h _ => exact .loop h
  | yes h _ => exact .yes h
  | no h _ => exact .no h
  | case h _ => exact .case h
  | inside h _ => exact .inside h

namespace Go

/-! ## Confined code -/

namespace Code

variable {κ : Type}

mutual

/-- Labels, jumps and leaves stand inside of chosen statements alone. -/
def Confined (chosen : Code κ → Prop) : Code κ → Prop
  | line _ => True
  | code@(label _) | code@(goto _) | code@(leaf _) => chosen code
  | code@(branch _ yes no) => chosen code ∨ ListConfined chosen yes ∧ ListConfined chosen no
  | code@(loop body) | code@(block body) => chosen code ∨ ListConfined chosen body
  | code@(switch _ cases) => chosen code ∨ CasesConfined chosen cases

def ListConfined (chosen : Code κ → Prop) : List (Code κ) → Prop
  | [] => True
  | code :: rest => code.Confined chosen ∧ ListConfined chosen rest

def CasesConfined (chosen : Code κ → Prop) : List (List (Code κ)) → Prop
  | [] => True
  | body :: rest => ListConfined chosen body ∧ CasesConfined chosen rest

end

section Confined

variable {chosen : Code κ → Prop}

theorem listConfined_append {first second : List (Code κ)}
    (hfirst : ListConfined chosen first) (hsecond : ListConfined chosen second) :
    ListConfined chosen (first ++ second) := by
  induction first with
  | nil => exact hsecond
  | cons code rest ih => exact ⟨hfirst.1, ih hfirst.2⟩

theorem listConfined_block {body : List (Code κ)} (h : ListConfined chosen body) :
    ListConfined chosen [.block body] :=
  ⟨.inr h, trivial⟩

mutual

/-- Labels are where the chosen statements have some. -/
theorem Confined.labelNames_eq_nil (hchosen : ∀ code, chosen code → code.labelNames = [])
    (code : Code κ) (h : code.Confined chosen) : code.labelNames = [] := by
  cases code with
  | line text => rfl
  | label name => exact hchosen _ h
  | goto name => rfl
  | leaf content => rfl
  | branch condition yes no =>
    rcases h with h | ⟨hyes, hno⟩
    · exact hchosen _ h
    · rw [labelNames, ListConfined.labelNames_eq_nil hchosen yes hyes,
        ListConfined.labelNames_eq_nil hchosen no hno, List.nil_append]
  | loop body =>
    rcases h with h | h
    · exact hchosen _ h
    · exact ListConfined.labelNames_eq_nil hchosen body h
  | block body =>
    rcases h with h | h
    · exact hchosen _ h
    · exact ListConfined.labelNames_eq_nil hchosen body h
  | switch subject cases =>
    rcases h with h | h
    · exact hchosen _ h
    · exact CasesConfined.labelNames_eq_nil hchosen cases h

theorem ListConfined.labelNames_eq_nil (hchosen : ∀ code, chosen code → code.labelNames = [])
    (code : List (Code κ)) (h : ListConfined chosen code) : listLabelNames code = [] := by
  cases code with
  | nil => rfl
  | cons code rest =>
    rw [listLabelNames, Confined.labelNames_eq_nil hchosen code h.1,
      ListConfined.labelNames_eq_nil hchosen rest h.2, List.nil_append]

theorem CasesConfined.labelNames_eq_nil (hchosen : ∀ code, chosen code → code.labelNames = [])
    (cases : List (List (Code κ))) (h : CasesConfined chosen cases) :
    casesLabelNames cases = [] := by
  cases cases with
  | nil => rfl
  | cons body rest =>
    rw [casesLabelNames, ListConfined.labelNames_eq_nil hchosen body h.1,
      CasesConfined.labelNames_eq_nil hchosen rest h.2, List.nil_append]

end

end Confined

section Expand

variable {ι : Type} {write : κ → List (Code ι)} {chosen : Code κ → Prop}

/-- The statement is what is written for a chosen one. -/
def WrittenFor (write : κ → List (Code ι)) (chosen : Code κ → Prop) (statement : Code ι) : Prop :=
  ∃ original, chosen original ∧ original.expand write = [statement]

mutual

private theorem confined_expand (hleaf : ∀ content, ¬chosen (.leaf content)) (code : Code κ)
    (h : code.Confined chosen) : ListConfined (WrittenFor write chosen) (code.expand write) := by
  cases code with
  | line text => exact ⟨trivial, trivial⟩
  | label name => exact ⟨⟨_, h, rfl⟩, trivial⟩
  | goto name => exact ⟨⟨_, h, rfl⟩, trivial⟩
  | leaf content => exact (hleaf content h).elim
  | branch condition yes no =>
    rcases h with h | ⟨hyes, hno⟩
    · exact ⟨.inl ⟨_, h, rfl⟩, trivial⟩
    · exact ⟨.inr ⟨confined_listExpand hleaf yes hyes, confined_listExpand hleaf no hno⟩, trivial⟩
  | loop body =>
    rcases h with h | h
    · exact ⟨.inl ⟨_, h, rfl⟩, trivial⟩
    · exact ⟨.inr (confined_listExpand hleaf body h), trivial⟩
  | block body =>
    rcases h with h | h
    · exact ⟨.inl ⟨_, h, rfl⟩, trivial⟩
    · exact ⟨.inr (confined_listExpand hleaf body h), trivial⟩
  | switch subject cases =>
    rcases h with h | h
    · exact ⟨.inl ⟨_, h, rfl⟩, trivial⟩
    · exact ⟨.inr (confined_casesExpand hleaf cases h), trivial⟩

/-- Code stays confined when leaves are written out, as they stand inside of chosen statements. -/
theorem confined_listExpand (hleaf : ∀ content, ¬chosen (.leaf content)) (code : List (Code κ))
    (h : ListConfined chosen code) :
    ListConfined (WrittenFor write chosen) (listExpand write code) := by
  cases code with
  | nil => trivial
  | cons code rest =>
    exact listConfined_append (confined_expand hleaf code h.1) (confined_listExpand hleaf rest h.2)

private theorem confined_casesExpand (hleaf : ∀ content, ¬chosen (.leaf content))
    (cases : List (List (Code κ))) (h : CasesConfined chosen cases) :
    CasesConfined (WrittenFor write chosen) (casesExpand write cases) := by
  cases cases with
  | nil => trivial
  | cons body rest =>
    exact ⟨confined_listExpand hleaf body h.1, confined_casesExpand hleaf rest h.2⟩

end

end Expand

end Code

/-- Lines that evaluate expressions are lines. -/
theorem Evaluates.confined {held : Option LockGroup} {label? : Option Label}
    {property : Expression → Prop} {code : NotedCode} (h : Evaluates held label? property code)
    (chosen : SectionCode → Prop) : Code.ListConfined chosen code.erase := by
  obtain ⟨lines, rfl, hlines⟩ := h
  clear hlines
  rw [NotedCode.erase_flatMap]
  induction lines with
  | nil => trivial
  | cons line rest ih =>
    rw [List.flatMap_cons]
    exact Code.listConfined_append ⟨trivial, trivial⟩ ih

/-! ## Retries -/

/-- The code retries the step of the tracker, for an `await` in the statements. -/
def Retries (definitions : Definitions) (tracker : Tracker) (statements : List Statement)
    (code : SectionCode) : Prop :=
  ∃ mark value found? text label name, (Statement.await mark value).Stands found? none statements ∧
    value.toGo definitions = .ok text ∧ tracker.label = some (label, name) ∧
    code = .branch ("!" ++ text) (tracker.aborting.map .leaf ++ [.goto name]) []

section Retries

variable {definitions : Definitions} {targets : List String} {tracker : Tracker}
  {statements more : List Statement} {code : SectionCode}

theorem Retries.mono (h : Retries definitions tracker statements code)
    (hstands : ∀ statement found?, Statement.Stands statement found? none statements →
      statement.Stands found? none more) : Retries definitions tracker more code := by
  obtain ⟨mark, value, found?, text, label, name, hawait, hretry⟩ := h
  exact ⟨mark, value, found?, text, label, name, hstands _ _ hawait, hretry⟩

theorem Retries.labelNames_eq_nil (h : Retries definitions tracker statements code) :
    code.labelNames = [] := by
  obtain ⟨_, _, _, _, _, _, _, _, _, rfl⟩ := h
  have haborting : Code.listLabelNames (tracker.aborting.map Code.leaf) = [] := by
    rw [Tracker.aborting]
    split <;> rfl
  simp [Code.labelNames, Code.listLabelNames, haborting]

/-- Where the body has left the tracker alone, the end of a loop does too. -/
theorem endLoop_of_same {entry : Tracker} {between after : Progress} {back : NotedCode}
    (hsettled : entry.Settled) (hsame : between.tracker = entry)
    (h : Noting.endLoop entry.label between = .ok (back, after)) :
    back = [] ∧ after.tracker = entry := by
  subst hsame
  cases hlabel : between.tracker.label with
  | none =>
    rw [hlabel] at h
    obtain ⟨rfl, rfl⟩ := Noting.close_ok.1 h
    have hopen : between.tracker.openGroup = none := by rw [hsettled, hlabel]; rfl
    refine ⟨by simp [Tracker.closing, hopen, NotedCode.ofCalls], ?_⟩
    exact between.tracker.alike_idle.ext hopen.symm hlabel.symm
  | some label =>
    have hopen : between.tracker.openGroup = between.tracker.groups.value.groupOf? label.1 := by
      rw [hsettled, hlabel]
      rfl
    rw [hlabel] at h
    rcases Noting.start_ok h with ⟨_, rfl, rfl⟩ | ⟨hcontinues, _, rfl, rfl⟩
    · exact ⟨rfl, rfl⟩
    -- A label whose group is not open has none, so it is entered without a call.
    · have hnone : between.tracker.groups.value.groupOf? label.1 = none := by
        cases hgroup : between.tracker.groups.value.groupOf? label.1 with
        | none => rfl
        | some group =>
          have htrue := Tracker.continues_iff.2 ⟨group, hopen.trans hgroup, hgroup⟩
          rw [hcontinues] at htrue
          cases htrue
      refine ⟨by simp [Tracker.closing, Tracker.opening, hopen, hnone, NotedCode.ofCalls], ?_⟩
      have halike : (between.tracker.entered label.1 label.2).Alike between.tracker :=
        ⟨rfl, rfl, rfl⟩
      exact halike.ext hopen.symm hlabel.symm

mutual

/-- Besides lines, a statement that keeps control writes what retries its step. -/
theorem confined_statement {chosen : SectionCode → Prop} {label? : Option Label}
    (statement : Statement) {before after : Progress} {code : NotedCode}
    (hstays : statement.transfersControl = false) (hbefore : before.tracker = tracker)
    (hsettled : tracker.Settled)
    (hchosen : ∀ code, Retries definitions tracker [statement] code → chosen code)
    (h : noteStatement definitions targets label? statement before = .ok (code, after)) :
    Code.ListConfined chosen code.erase := by
  cases statement with
  | whileDo mark condition body =>
    obtain ⟨text, inner, between, back, _, hinner, hback, _, rfl⟩ := noteStatement_whileDo_ok h
    have hbetween := (stays_statements body hstays hinner).trans hbefore
    rw [hbefore] at hback
    obtain ⟨rfl, _⟩ := endLoop_of_same hsettled hbetween hback
    have hbody := confined_statements body hstays hbefore hsettled
      (fun code hretries => hchosen code (hretries.mono fun _ _ => .loop)) hinner
    simp only [NotedCode.erase_loop, NotedCode.erase_remark, NotedCode.erase_branch,
      NotedCode.erase_nil, List.append_nil]
    exact ⟨.inr ⟨.inr ⟨⟨trivial, trivial⟩, trivial⟩, hbody⟩, trivial⟩
  | ifElse mark condition yes no =>
    have hboth : (Statement.anyTransfersControl yes || Statement.anyTransfersControl no) = false :=
      hstays
    obtain ⟨hyesStays, hnoStays⟩ := Bool.or_eq_false_iff.1 hboth
    obtain ⟨text, yesCode, yesLast, noCode, noLast, _, hyes, hno, _, _, rfl⟩ :=
      noteStatement_ifElse_ok h
    have hput : ({ yesLast with tracker := before.tracker } : Progress).tracker = tracker := hbefore
    have hyesCode := confined_statements yes hyesStays hbefore hsettled
      (fun code hretries => hchosen code (hretries.mono fun _ _ => .yes))
      (Noting.unclosed_ok hboth hyes)
    have hnoCode := confined_statements no hnoStays hput hsettled
      (fun code hretries => hchosen code (hretries.mono fun _ _ => .no))
      (Noting.unclosed_ok hboth hno)
    exact ⟨.inr ⟨hyesCode, hnoCode⟩, trivial⟩
  | either mark cases =>
    have hcases : Statement.anyCaseTransfersControl cases = false := hstays
    obtain ⟨codes, first, last, hrun, _, rfl⟩ := noteStatement_either_ok h
    rw [hcases] at hrun
    have hcodes := confined_cases mark [] cases hcases hbefore hsettled hchosen hrun
    simp only [NotedCode.erase_remark, NotedCode.erase_switch]
    exact ⟨.inr hcodes, trivial⟩
  | assign mark pairs =>
    obtain ⟨_, lines, rfl | rfl, hlines⟩ := noteStatement_assign_ok h
    · exact hlines.confined chosen
    · exact Code.listConfined_block (hlines.confined chosen)
  | skip mark =>
    obtain ⟨_, rfl⟩ := noteStatement_skip_ok h
    trivial
  | withDo mark bindings body =>
    obtain ⟨front, inner, _, hfront, hinner, rfl⟩ := noteStatement_withDo_ok h
    have hbody := confined_statements body hstays hbefore hsettled
      (fun code hretries => hchosen code (hretries.mono fun _ _ => .inside)) hinner
    simp only [NotedCode.erase_block, NotedCode.erase_append]
    exact Code.listConfined_block (Code.listConfined_append (hfront.confined chosen) hbody)
  | print mark value =>
    obtain ⟨_, hcode⟩ := noteStatement_print_ok h
    exact hcode.confined chosen
  | assert mark value =>
    obtain ⟨condition, text, _, _, rfl⟩ := noteStatement_assert_ok h
    exact ⟨.inr ⟨⟨trivial, trivial⟩, trivial⟩, trivial⟩
  | await mark value =>
    obtain ⟨text, label, name, htext, hlabel, _, rfl⟩ := noteStatement_await_ok h
    rw [hbefore] at hlabel ⊢
    simp only [NotedCode.erase_remark, NotedCode.erase_branch, NotedCode.erase_append,
      NotedCode.erase_ofCalls, NotedCode.erase_goto, NotedCode.erase_nil]
    have hretries := hchosen _ ⟨mark, value, none, text, label, name, .here, htext, hlabel, rfl⟩
    exact ⟨.inl hretries, trivial⟩
  | labeled mark label body => cases hstays
  | leave mark => cases hstays
  | call mark target arguments => cases hstays
  | macroCall mark target arguments => cases hstays
  | goto mark target => cases hstays

theorem confined_statements {chosen : SectionCode → Prop} {label? : Option Label}
    (statements : List Statement) {before after : Progress} {code : NotedCode}
    (hstays : Statement.anyTransfersControl statements = false)
    (hbefore : before.tracker = tracker) (hsettled : tracker.Settled)
    (hchosen : ∀ code, Retries definitions tracker statements code → chosen code)
    (h : noteStatements definitions targets label? statements before = .ok (code, after)) :
    Code.ListConfined chosen code.erase := by
  cases statements with
  | nil =>
    obtain ⟨rfl, _⟩ := Noting.pure_ok.1 h
    trivial
  | cons statement rest =>
    obtain ⟨hstatement, hrest⟩ := Bool.or_eq_false_iff.1 hstays
    obtain ⟨front, between, back, hfront, hback, rfl⟩ := Noting.append_ok.1 h
    obtain ⟨hlabeled, hneeds⟩ := Statement.stays_of_not_transfersControl hstatement
    have hsame := stays_statement statement hlabeled hneeds hfront
    rw [NotedCode.erase_append]
    apply Code.listConfined_append
    · exact confined_statement statement hstatement hbefore hsettled
        (fun code hretries => hchosen code (hretries.mono fun _ _ h => h.append rest)) hfront
    · exact confined_statements rest hrest (hsame.trans hbefore) hsettled
        (fun code hretries => hchosen code (hretries.mono fun _ _ => .later)) hback

/-- The same for the cases of a choice that come after some others. -/
theorem confined_cases {chosen : SectionCode → Prop} {label? : Option Label} (mark : Mark)
    (earlier cases : List (List Statement)) {before after : Progress}
    {first result : Option Tracker} {codes : List NotedCode}
    (hstays : Statement.anyCaseTransfersControl cases = false) (hbefore : before.tracker = tracker)
    (hsettled : tracker.Settled)
    (hchosen : ∀ code, Retries definitions tracker [.either mark (earlier ++ cases)] code →
      chosen code)
    (h : noteCases definitions targets label? false first cases before =
      .ok ((codes, result), after)) :
    Code.CasesConfined chosen (codes.map NotedCode.erase) := by
  cases cases with
  | nil =>
    obtain ⟨heq, _⟩ := Noting.pure_ok.1 h
    injection heq with hcodes
    rw [hcodes]
    trivial
  | cons body rest =>
    obtain ⟨hbodyStays, hrestStays⟩ := Bool.or_eq_false_iff.1 hstays
    obtain ⟨bodyCode, last, others, hbody, _, hrest, rfl⟩ := noteCases_cons_ok h
    have hput : ({ last with tracker := before.tracker } : Progress).tracker = tracker := hbefore
    have hbodyCode := confined_statements body hbodyStays hbefore hsettled
      (fun code hretries => hchosen code (hretries.mono fun _ _ => .case))
      (Noting.unclosed_ok rfl hbody)
    rw [List.append_cons] at hchosen
    exact ⟨hbodyCode, confined_cases mark (earlier ++ [body]) rest hrestStays hput hsettled hchosen
      hrest⟩

end

end Retries

/-! ## Lowering in a body -/

theorem FunctionContext.settled_of_visits {context : FunctionContext} {imports : Imports}
    {source : Source} {visit : Visit} (h : context.Visits imports source visit) :
    visit.state.tracker.Settled := by
  obtain ⟨_, _, hcarries⟩ := carries_of_visits h (.self _)
  have hstart : (context.start imports source.owner).Anchored
      (Statement.listJumpTargets source.body) := ⟨rfl, nofun, nofun⟩
  exact (hcarries.anchored hstart).settled

/-- Wherever lowering a body has come to, a statement that transfers no control writes what retries
its step, and lines. -/
theorem FunctionContext.confined_of_visits {context : FunctionContext} {imports : Imports}
    {source : Source} {visit : Visit} (hvisits : context.Visits imports source visit)
    {statement : Statement} (hstays : statement.transfersControl = false)
    {before after : Lowering} (hbefore : before.progress = visit.state)
    (hlower : lowerStatement context.definitions (Statement.listJumpTargets source.body) statement
      before = .ok () after) :
    ∃ code progress, noteStatement context.definitions (Statement.listJumpTargets source.body)
        visit.label? statement before.progress = .ok (code, progress) ∧
      after = before.write code progress ∧
      Code.ListConfined (Retries context.definitions before.emission.tracker [statement])
        code.erase := by
  have hsettled : before.progress.tracker.Settled := by
    rw [hbefore]
    exact settled_of_visits hvisits
  obtain ⟨code, progress, hnoted, rfl⟩ := (writes_statement context.definitions
    (Statement.listJumpTargets source.body) visit.label? statement).ok hlower
  exact ⟨code, progress, hnoted, rfl,
    confined_statement statement hstays rfl hsettled (fun _ h => h) hnoted⟩

/-- Wherever lowering a body has come to, a statement that transfers no control leaves the open
group, the label and its name as they are. It writes no label, and it locks, unlocks and jumps where
an `await` in it retries the step, and nowhere else. -/
theorem FunctionContext.lowerStatement_stays {context : FunctionContext} {imports : Imports}
    {source : Source} {visit : Visit} (hvisits : context.Visits imports source visit)
    {statement : Statement} (hstays : statement.transfersControl = false)
    {before after : Lowering} (hbefore : before.progress = visit.state)
    (hlower : lowerStatement context.definitions (Statement.listJumpTargets source.body) statement
      before = .ok () after) :
    after.emission.tracker = before.emission.tracker ∧
      ∃ added, after.emission.builder.current = before.emission.builder.current ++ added ∧
        after.emission.builder.enclosing = before.emission.builder.enclosing ∧
        Code.listLabelNames added = [] ∧
        Code.ListConfined (Retries context.definitions before.emission.tracker [statement])
          added := by
  obtain ⟨code, progress, hnoted, rfl, hconfined⟩ :=
    confined_of_visits hvisits hstays hbefore hlower
  obtain ⟨hlabeled, hneeds⟩ := Statement.stays_of_not_transfersControl hstays
  refine ⟨stays_statement statement hlabeled hneeds hnoted, code.erase, rfl, rfl, ?_, hconfined⟩
  exact Code.ListConfined.labelNames_eq_nil (fun _ => Retries.labelNames_eq_nil) _ hconfined

/-! ## A loop that waits

The step `a` reads `x`, so its group is open where the loop begins. -/

private def waitingCondition : Expression :=
  .binary ⟨13⟩ .lessThan (.identifier ⟨14⟩ "x") (.number ⟨15⟩ 1)

private def waitingLoop : Statement :=
  .whileDo ⟨⟨12⟩, .unknown⟩ waitingCondition [.await ⟨⟨16⟩, .unknown⟩ waitingCondition]

private def waitingSource : Source :=
  ⟨"P", ⟨2⟩, [], [.labeled ⟨⟨10⟩, .unknown⟩ ⟨⟨11⟩, "a"⟩ [waitingLoop]]⟩

private def waitingContext : FunctionContext :=
  ⟨⟨[⟨⟨1⟩, "x", .global .plain, .unknown⟩], [(⟨14⟩, ⟨1⟩)]⟩,
    ⟨[(⟨11⟩, ⟨0⟩)], [(⟨0⟩, ⟨1⟩)], []⟩, .inProcess, []⟩

private def waitingTracker : Tracker :=
  ⟨⟨0, waitingContext.groups⟩, ⟨0, .inProcess⟩, ⟨2⟩, some ⟨0⟩, some (⟨11⟩, "a")⟩

private def waitingVisit : Visit :=
  ⟨some ⟨⟨⟨11⟩, "a"⟩, .new ⟨0, waitingContext.groups⟩ ⟨0, .inProcess⟩ ⟨2⟩⟩, waitingLoop,
    ⟨waitingTracker, ["a"], [], 0, .none⟩⟩

private def waitingBefore : Lowering :=
  ⟨⟨waitingTracker, ⟨[.label "a", .leaf ⟨.inProcess, .acquire, ⟨0⟩⟩], [], ["a"], []⟩⟩, 0, .none⟩

theorem FunctionContext.lowerStatement_stays_waiting :
    ∃ after, lowerStatement waitingContext.definitions [] waitingLoop waitingBefore = .ok () after ∧
      after.emission.tracker = waitingTracker ∧
      after.emission.builder.current = waitingBefore.emission.builder.current ++
        [.loop [.branch "!(x < 1)" [.line "break"] [],
          .branch "!(x < 1)" [.leaf ⟨.inProcess, .abort, ⟨0⟩⟩, .goto "a"] []]] ∧
      Code.ListConfined (Retries waitingContext.definitions waitingTracker [waitingLoop])
        [.loop [.branch "!(x < 1)" [.line "break"] [],
          .branch "!(x < 1)" [.leaf ⟨.inProcess, .abort, ⟨0⟩⟩, .goto "a"] []]] := by
  have hvisits : waitingContext.Visits .none waitingSource waitingVisit :=
    .labeled rfl List.not_mem_nil rfl .here
  have hlower : ∃ after, lowerStatement waitingContext.definitions [] waitingLoop waitingBefore =
      .ok () after ∧ after.emission.builder.current = waitingBefore.emission.builder.current ++
        [.loop [.branch "!(x < 1)" [.line "break"] [],
          .branch "!(x < 1)" [.leaf ⟨.inProcess, .abort, ⟨0⟩⟩, .goto "a"] []]] := ⟨_, rfl, rfl⟩
  obtain ⟨after, hlower, hcurrent⟩ := hlower
  have hstays : waitingLoop.transfersControl = false := rfl
  have hbefore : waitingBefore.progress = waitingVisit.state := rfl
  obtain ⟨htracker, added, hadded, _, _, hconfined⟩ :=
    lowerStatement_stays hvisits hstays hbefore hlower
  rw [List.append_cancel_left (hadded.symm.trans hcurrent)] at hconfined
  exact ⟨after, hlower, htracker, hcurrent, hconfined⟩

end Go

end PlusCalGo
