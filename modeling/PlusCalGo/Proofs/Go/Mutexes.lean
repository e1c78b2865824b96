import PlusCalGo.Proofs.Go.Erasure
import PlusCalGo.Proofs.Go.Expansion
import PlusCalGo.Proofs.Go.Functions
import PlusCalGo.Proofs.Go.LockBalance
import PlusCalGo.Proofs.Json.Layout
import PlusCalGo.Proofs.Locking.Numbers
import PlusCalGo.Proofs.Resolution.Labels

/-!
# Mutexes in range

An open group is always the group of a label of the body, and so is every group that a lock is taken
or given back for. With the locks in the program itself, the file therefore declares every mutex
that its functions use. Under inferred groups each of them belongs to a label.
-/

namespace PlusCalGo

namespace Go

/-- What the calls of one body go by: its lock groups, its strategy, and its labels. -/
structure Allotment where
  groups : LockGroups
  strategy : Strategy
  labels : List Label

namespace Allotment

variable (allotment : Allotment)

/-- The group is that of a label of the body. -/
def Assigns (group : LockGroup) : Prop :=
  ∃ label ∈ allotment.labels, allotment.groups.groupOf? label.uid = some group

/-- The call is on the group of a label of the body. -/
def Calls (call : SectionCall) : Prop :=
  call.strategy = allotment.strategy ∧ allotment.Assigns call.group

/-- The tracker is at a label of the body, and its open group is assigned. -/
structure Tracks (tracker : Tracker) : Prop where
  groups : tracker.groups.value = allotment.groups
  strategy : tracker.strategy.value = allotment.strategy
  label : ∀ entry ∈ tracker.label, ∃ label ∈ allotment.labels, label.uid = entry.1
  openGroup : ∀ group ∈ tracker.openGroup, allotment.Assigns group

/-- Lowering goes from one state to another one, and all calls it makes are on assigned groups. -/
def Covers (before : Progress) (code : NotedCode) (after : Progress) : Prop :=
  allotment.Tracks before.tracker → allotment.Tracks after.tracker ∧
    ∀ call ∈ callsOf (Code.listLeaves code), allotment.Calls call

end Allotment

section Covers

variable {allotment : Allotment} {before between after : Progress} {code front back : NotedCode}
  {tracker : Tracker} {label : Uid} {name : String}

/-! ## Calls of a tracker -/

theorem callsOf_ofCalls (calls : List SectionCall) :
    callsOf (Code.listLeaves (NotedCode.ofCalls calls)) = calls := by
  rw [leaves_ofCalls]
  induction calls with
  | nil => rfl
  | cons call rest ih => rw [List.map_cons, callsOf, ih]

namespace Allotment.Tracks

theorem idle (h : allotment.Tracks tracker) : allotment.Tracks tracker.idle :=
  ⟨h.groups, h.strategy, by simp [Tracker.idle], by simp [Tracker.idle]⟩

theorem entered (h : allotment.Tracks tracker)
    (hlabel : ∃ own ∈ allotment.labels, own.uid = label) :
    allotment.Tracks (tracker.entered label name) where
  groups := h.groups
  strategy := h.strategy
  label := by
    intro entry hentry
    cases hentry
    exact hlabel
  openGroup := by
    intro group hgroup
    obtain ⟨own, hmem, rfl⟩ := hlabel
    exact ⟨own, hmem, h.groups ▸ hgroup⟩

theorem closing (h : allotment.Tracks tracker) :
    ∀ call ∈ tracker.closing, allotment.Calls call := by
  unfold Tracker.closing
  split
  · rename_i group _ hgroup _
    exact List.forall_mem_singleton.2 ⟨h.strategy, h.openGroup group hgroup⟩
  · exact List.forall_mem_nil _

theorem aborting (h : allotment.Tracks tracker) :
    ∀ call ∈ tracker.aborting, allotment.Calls call := by
  unfold Tracker.aborting
  split
  · rename_i group hgroup
    exact List.forall_mem_singleton.2 ⟨h.strategy, h.openGroup group hgroup⟩
  · exact List.forall_mem_nil _

theorem opening (h : allotment.Tracks tracker)
    (hlabel : ∃ own ∈ allotment.labels, own.uid = label) :
    ∀ call ∈ tracker.opening label, allotment.Calls call := by
  unfold Tracker.opening
  split
  · rename_i group hgroup
    obtain ⟨own, hmem, rfl⟩ := hlabel
    exact List.forall_mem_singleton.2 ⟨h.strategy, own, hmem, h.groups ▸ hgroup⟩
  · exact List.forall_mem_nil _

end Allotment.Tracks

/-! ## Stretches of code -/

namespace Allotment.Covers

theorem append (hfront : allotment.Covers before front between)
    (hback : allotment.Covers between back after) :
    allotment.Covers before (front ++ back) after := by
  intro htracks
  obtain ⟨hbetween, hfront⟩ := hfront htracks
  obtain ⟨hafter, hback⟩ := hback hbetween
  refine ⟨hafter, ?_⟩
  rw [Code.listLeaves_append, callsOf_append]
  exact List.forall_mem_append.2 ⟨hfront, hback⟩

/-- Only the tracker and the calls count. -/
theorem congr (h : allotment.Covers before code after) {other : Progress} {more : NotedCode}
    (hother : other.tracker = after.tracker)
    (hcalls : callsOf (Code.listLeaves more) = callsOf (Code.listLeaves code)) :
    allotment.Covers before more other := by
  unfold Covers
  rw [hother, hcalls]
  exact h

/-- Code without calls. -/
theorem quiet (hsame : after.tracker = before.tracker)
    (hcalls : callsOf (Code.listLeaves code) = []) : allotment.Covers before code after := by
  intro htracks
  rw [hsame, hcalls]
  exact ⟨htracks, List.forall_mem_nil _⟩

theorem closing : allotment.Covers before (NotedCode.ofCalls before.tracker.closing)
    { before with tracker := before.tracker.idle } := by
  intro htracks
  rw [callsOf_ofCalls]
  exact ⟨htracks.idle, htracks.closing⟩

theorem ofStart (h : Noting.start label name before = .ok (code, after))
    (hlabel : ∃ own ∈ allotment.labels, own.uid = label) :
    allotment.Covers before code after := by
  rcases Noting.start_ok h with ⟨_, rfl, rfl⟩ | ⟨_, _, rfl, rfl⟩
  · exact quiet rfl rfl
  · intro htracks
    rw [callsOf_ofCalls]
    exact ⟨htracks.entered hlabel,
      List.forall_mem_append.2 ⟨htracks.closing, htracks.opening hlabel⟩⟩

theorem ofEndLoop {entry : Option (Uid × String)}
    (h : Noting.endLoop entry before = .ok (code, after))
    (hentry : ∀ label ∈ entry, ∃ own ∈ allotment.labels, own.uid = label.1) :
    allotment.Covers before code after := by
  cases entry with
  | none =>
    obtain ⟨rfl, rfl⟩ := Noting.close_ok.1 h
    exact closing
  | some entry => exact ofStart h (hentry entry rfl)

theorem ofCloseIf {noting : Noting NotedCode} {closeSection : Bool}
    (h : (noting ++ if closeSection then Noting.close else pure []) before = .ok (code, after))
    (hcode : ∀ code after, noting before = .ok (code, after) →
      allotment.Covers before code after) : allotment.Covers before code after := by
  obtain ⟨front, last, hfront, ⟨_, rfl, rfl⟩ | ⟨_, rfl, rfl⟩⟩ := Noting.closeIf_ok h
  · exact hcode _ _ hfront
  · exact (hcode _ _ hfront).append closing

end Allotment.Covers

theorem PlainLines.callsOf (h : PlainLines code) : callsOf (Code.listLeaves code) = [] := by
  rw [h.leaves]
  rfl

theorem Evaluates.callsOf {held : Option LockGroup} {label? : Option Label}
    {property : Expression → Prop} (h : Evaluates held label? property code) :
    callsOf (Code.listLeaves code) = [] := by
  obtain ⟨lines, rfl, -⟩ := h
  induction lines with
  | nil => rfl
  | cons line rest ih => exact ih

/-! ## Statements -/

mutual

/-- All calls of a statement are on groups that labels of the body have. -/
theorem covers_statement {definitions : Definitions} {targets : List String}
    {label? : Option Label} (statement : Statement) {before after : Progress} {code : NotedCode}
    (hlabels : ∀ label ∈ statement.innerLabels, label ∈ allotment.labels)
    (h : noteStatement definitions targets label? statement before = .ok (code, after)) :
    allotment.Covers before code after := by
  cases statement with
  | labeled mark label body =>
    obtain ⟨front, reached, opening, started, inner, hfront, _, hstart, hinner, rfl⟩ :=
      noteStatement_labeled_ok h
    obtain ⟨hlabel, hinnerLabels⟩ := List.forall_mem_cons.1 hlabels
    have hfront : allotment.Covers before front reached := by
      split at hfront
      · obtain ⟨rfl, rfl⟩ := Noting.close_ok.1 hfront
        exact .closing
      · obtain ⟨rfl, rfl⟩ := Noting.pure_ok.1 hfront
        exact .quiet rfl rfl
    have hopening := Allotment.Covers.ofStart hstart ⟨label, hlabel, rfl⟩
    have hbody := covers_statements body hinnerLabels hinner
    have harrival : allotment.Covers reached [.leaf (.remark ⟨reached.tracker.openGroup, some label,
        .arrives label !reached.tracker.continues label.uid⟩), .label label.name]
        { reached with labels := label.name :: reached.labels } := .quiet rfl rfl
    exact hfront.append (harrival.append (hopening.append hbody))
  | whileDo mark condition body =>
    obtain ⟨text, inner, between, back, _, hinner, hback, _, rfl⟩ := noteStatement_whileDo_ok h
    intro htracks
    have hbody := (covers_statements body hlabels hinner).append (.ofEndLoop hback htracks.label)
    refine hbody.congr rfl ?_ htracks
    simp [Code.listLeaves, Code.leaves, callsOf]
  | ifElse mark condition yes no =>
    obtain ⟨text, yesCode, yesLast, noCode, noLast, _, hyes, hno, _, rfl, rfl⟩ :=
      noteStatement_ifElse_ok h
    obtain ⟨hyesLabels, hnoLabels⟩ := List.forall_mem_append.1 hlabels
    have hyes := Allotment.Covers.ofCloseIf hyes fun _ _ => covers_statements yes hyesLabels
    have hno := Allotment.Covers.ofCloseIf hno fun _ _ => covers_statements no hnoLabels
    intro htracks
    obtain ⟨hafter, hyesCalls⟩ := hyes htracks
    obtain ⟨_, hnoCalls⟩ := hno htracks
    refine ⟨hafter, ?_⟩
    simpa [Code.listLeaves, Code.leaves, callsOf] using
      List.forall_mem_append.2 ⟨hyesCalls, hnoCalls⟩
  | either mark cases =>
    obtain ⟨codes, first, last, hcases, ⟨_, rfl⟩, rfl⟩ := noteStatement_either_ok h
    intro htracks
    obtain ⟨hlast, hafter, hcalls⟩ := covers_cases cases hlabels hcases htracks (by simp)
    rw [hlast]
    refine ⟨hafter, ?_⟩
    simpa [Code.listLeaves, Code.leaves, callsOf] using hcalls
  | assign mark pairs =>
    obtain ⟨⟨_, rfl⟩, lines, hcode, hlines⟩ := noteStatement_assign_ok h
    rcases hcode with rfl | rfl
    · exact .quiet rfl hlines.callsOf
    · refine .quiet rfl ?_
      simpa [Code.listLeaves, Code.leaves] using hlines.callsOf
  | leave mark =>
    obtain ⟨rfl, rfl⟩ := noteStatement_leave_ok h
    exact Allotment.Covers.closing.append (.quiet rfl rfl)
  | skip mark =>
    obtain ⟨rfl, rfl⟩ := noteStatement_skip_ok h
    exact .quiet rfl rfl
  | call mark target arguments =>
    obtain ⟨text, _, rfl, rfl⟩ := noteStatement_call_ok h
    exact Allotment.Covers.closing.append (.quiet rfl rfl)
  | macroCall mark target arguments => cases h
  | withDo mark bindings body =>
    obtain ⟨front, inner, _, hfront, hinner, rfl⟩ := noteStatement_withDo_ok h
    have hfront : allotment.Covers before front before := .quiet rfl hfront.callsOf
    refine (hfront.append (covers_statements body hlabels hinner)).congr rfl ?_
    simp [Code.listLeaves, Code.leaves]
  | print mark value =>
    obtain ⟨⟨_, rfl⟩, hlines⟩ := noteStatement_print_ok h
    exact .quiet rfl hlines.callsOf
  | assert mark value =>
    obtain ⟨condition, text, _, rfl, rfl⟩ := noteStatement_assert_ok h
    exact .quiet rfl rfl
  | await mark value =>
    obtain ⟨text, label, name, _, _, rfl, rfl⟩ := noteStatement_await_ok h
    intro htracks
    refine ⟨htracks, ?_⟩
    have hcalls : callsOf (Code.listLeaves ([.leaf (.remark ⟨before.tracker.openGroup, label?,
        .evaluates [value]⟩), .branch ("!" ++ text) (NotedCode.ofCalls before.tracker.aborting ++
          [.leaf (.remark ⟨none, label?, .retries⟩), .goto name]) []])) =
        before.tracker.aborting := by
      simp [Code.listLeaves, Code.leaves, callsOf, callsOf_ofCalls]
    rw [hcalls]
    exact htracks.aborting
  | goto mark target =>
    rcases noteStatement_goto_ok h with ⟨rfl, rfl⟩ | ⟨rfl, rfl⟩
    · exact Allotment.Covers.closing.append (.quiet rfl rfl)
    · exact Allotment.Covers.closing.append (.quiet rfl rfl)

theorem covers_statements {definitions : Definitions} {targets : List String}
    {label? : Option Label} (statements : List Statement) {before after : Progress}
    {code : NotedCode}
    (hlabels : ∀ label ∈ Statement.listInnerLabels statements, label ∈ allotment.labels)
    (h : noteStatements definitions targets label? statements before = .ok (code, after)) :
    allotment.Covers before code after := by
  cases statements with
  | nil =>
    obtain ⟨rfl, rfl⟩ := Noting.pure_ok.1 h
    exact .quiet rfl rfl
  | cons statement rest =>
    obtain ⟨front, between, back, hfront, hback, rfl⟩ := Noting.append_ok.1 h
    obtain ⟨hstatement, hrest⟩ := List.forall_mem_append.1 hlabels
    exact (covers_statement statement hstatement hfront).append
      (covers_statements rest hrest hback)

/-- The cases of a choice all begin with the tracker of the choice. -/
theorem covers_cases {definitions : Definitions} {targets : List String}
    {label? : Option Label} {closeSection : Bool} {first result : Option Tracker}
    (cases : List (List Statement)) {before after : Progress} {codes : List NotedCode}
    (hlabels : ∀ label ∈ Statement.casesInnerLabels cases, label ∈ allotment.labels)
    (h : noteCases definitions targets label? closeSection first cases before =
      .ok ((codes, result), after)) (htracks : allotment.Tracks before.tracker)
    (hfirst : ∀ tracker ∈ first, allotment.Tracks tracker) :
    after.tracker = before.tracker ∧ allotment.Tracks (result.getD before.tracker) ∧
      ∀ call ∈ callsOf (Code.casesLeaves codes), allotment.Calls call := by
  cases cases with
  | nil =>
    obtain ⟨heq, rfl⟩ := Noting.pure_ok.1 h
    injection heq with hcodes hresult
    subst hcodes hresult
    refine ⟨rfl, ?_, List.forall_mem_nil _⟩
    cases result with
    | none => exact htracks
    | some tracker => exact hfirst tracker rfl
  | cons body rest =>
    obtain ⟨bodyCode, last, others, hbody, _, hrest, rfl⟩ := noteCases_cons_ok h
    obtain ⟨hbodyLabels, hrestLabels⟩ := List.forall_mem_append.1 hlabels
    obtain ⟨hlast, hbodyCalls⟩ := Allotment.Covers.ofCloseIf hbody
      (fun _ _ => covers_statements body hbodyLabels) htracks
    have hnext : ∀ tracker ∈ some (first.getD last.tracker), allotment.Tracks tracker := by
      intro tracker htracker
      cases htracker
      cases first with
      | none => exact hlast
      | some tracker => exact hfirst tracker rfl
    obtain ⟨hafter, hresult, hothers⟩ := covers_cases rest hrestLabels hrest htracks hnext
    refine ⟨hafter, hresult, ?_⟩
    rw [Code.casesLeaves, callsOf_append]
    exact List.forall_mem_append.2 ⟨hbodyCalls, hothers⟩

end

/-! ## Functions -/

/-- Every call of a function is on the group of a label that stands in its body. -/
theorem FunctionContext.calls_of_body {context : FunctionContext} {imports needed : Imports}
    {owner : Uid} {locals : List VariableDecl} {body : List Statement}
    {result : FunctionBody SectionCall}
    (h : context.body imports owner locals body = .ok (result, needed)) :
    ∀ call ∈ Code.listLeaves result.code, call.strategy = context.strategy ∧
      ∃ label ∈ Statement.listInnerLabels body,
        context.groups.groupOf? label.uid = some call.group := by
  obtain ⟨code, progress, hnoted, hcode, _⟩ := noted_of_body h
  obtain ⟨front, inner, last, hfront, hinner, _, rfl⟩ := noted_ok hnoted
  let allotment : Allotment :=
    ⟨context.groups, context.strategy, Statement.listInnerLabels body⟩
  have hstart : allotment.Tracks (context.start imports owner).tracker :=
    ⟨rfl, rfl, by simp [start, Tracker.new], by simp [start, Tracker.new]⟩
  have hlabels : ∀ label ∈ Statement.listInnerLabels body, label ∈ allotment.labels :=
    fun _ hlabel => hlabel
  have hfunction := (Allotment.Covers.quiet rfl hfront.callsOf).append
    ((covers_statements body hlabels hinner).append .closing)
  rw [hcode, NotedCode.leaves_erase]
  exact (hfunction hstart).2

end Covers

/-- The line on the mutex of a number. -/
def mutexLine (number : Nat) (method : String) : String :=
  lockArray ++ "[" ++ Nat.repr number ++ "]." ++ method ++ "()"

/-- The file takes or gives back the mutex of the number in some function. -/
def Program.UsesMutex (program : Program) (number : Nat) : Prop :=
  ∃ function ∈ program.functions, ∃ call ∈ Code.listLeaves function.body.code,
    ∃ method ∈ ["Lock", "Unlock"],
      (call.code : List PlainCode) = [.line (mutexLine number method)]

/-- The file declares an array of as many mutexes, ahead of its functions. -/
def Program.DeclaresMutexes (program : Program) (size : Nat) : Prop :=
  ∃ front, program.render =
    unlines (front ++ ["var " ++ lockArray ++ " [" ++ Nat.repr size ++ "]sync.Mutex", ""]) ++
      String.join (program.functions.map Function.render) ++ unlines program.mainLines

theorem mutexLine_number {number other : Nat} {method own : String} (hmethod : ']' ∉ method.toList)
    (h : mutexLine number method = mutexLine other own) : number = other := by
  have hdigits (n : Nat) : ']' ∉ (Nat.repr n).toList := by
    rw [Nat.toList_repr]
    intro hmem
    exact absurd (Json.isDigit_of_mem_toDigits hmem) (by decide)
  have hchars := congrArg String.toList h
  simp only [mutexLine, String.toList_append, List.append_assoc, List.append_cancel_left_eq]
    at hchars
  have hbracket : "].".toList = [']', '.'] := rfl
  simp only [hbracket, List.cons_append, List.nil_append] at hchars
  have hsame := (List.append_cons_inj_of_notMem (hdigits number) (by simp [hmethod])).1 hchars
  exact Nat.repr_injective (String.toList_injective hsame.1)

/-- The method of a mutex that an action calls. -/
def SectionAction.method : SectionAction → String
  | acquire => "Lock"
  | release | abort => "Unlock"

/-- A call under mutexes is one line on the mutex with the number of its group. -/
theorem SectionCall.code_inProcess {κ : Type} (action : SectionAction) (group : LockGroup) :
    (SectionCall.code ⟨.inProcess, action, group⟩ : List (Code κ)) =
      [.line (mutexLine group.index action.method)] := by
  have hline (method : String) : mutexLine group.index method =
      lockArray ++ "[" ++ group.text ++ ("]." ++ method ++ "()") := by
    rw [mutexLine, LockGroup.text, ← String.toList_inj]
    simp only [String.toList_append, List.append_assoc]
  rw [hline]
  cases action <;> rfl

/-- The call of the state service for a method on a group. -/
def serviceCall (method : String) (group : LockGroup) : String :=
  globalState ++ "." ++ method ++ "(self, " ++ group.text ++ ")"

namespace SectionCall

/-- The globals that an acquisition loads. -/
def loads (call : SectionCall) : List String :=
  match call.action, call.strategy.sharedGlobals? call.group with
  | .acquire, some shared => shared.loads
  | _, _ => []

/-- The globals that a release stores. -/
def stores (call : SectionCall) : List String :=
  match call.action, call.strategy.sharedGlobals? call.group with
  | .release, some shared => shared.stores
  | _, _ => []

/-- A call under a state service is one checked call of the service. Globals are loaded behind it
and stored ahead of it. -/
theorem code_coordinated {κ : Type} (shared : List (LockGroup × SharedGlobals))
    (action : SectionAction) (group : LockGroup) :
    (code ⟨.coordinated shared, action, group⟩ : List (Code κ)) =
      (stores ⟨.coordinated shared, action, group⟩).map storeGlobal ++
        checkedCall (serviceCall action.method group) ::
          (loads ⟨.coordinated shared, action, group⟩).map loadGlobal := by
  have hcall (method : String) : serviceCall method group =
      globalState ++ ("." ++ method ++ "(self, ") ++ group.text ++ ")" := by
    rw [serviceCall, ← String.toList_inj]
    simp only [String.toList_append, List.append_assoc]
  rw [hcall]
  cases action with
  | acquire =>
    simp only [code, stores, loads]
    cases (Strategy.coordinated shared).sharedGlobals? group <;> rfl
  | release =>
    simp only [code, stores, loads]
    cases (Strategy.coordinated shared).sharedGlobals? group <;> rfl
  | abort => rfl

end SectionCall

theorem SectionCall.number_of_code {call : SectionCall} {number : Nat} {method : String}
    (hstrategy : call.strategy = .inProcess)
    (h : (call.code : List PlainCode) = [.line (mutexLine number method)]) :
    call.group.index = number := by
  obtain ⟨strategy, action, group⟩ := call
  cases hstrategy
  rw [code_inProcess] at h
  have hmethod : ']' ∉ action.method.toList := by
    cases action <;> decide
  exact mutexLine_number hmethod (Code.line.inj (List.cons.inj h).1)

theorem Program.declaresMutexes {program : Program} {size : Nat}
    (hlocks : program.locks = .mutexes size) (hsize : size ≠ 0) : program.DeclaresMutexes size := by
  refine ⟨program.header ++ program.declarationLines, ?_⟩
  rw [render, hlocks, LockHome.declarationLines, if_neg hsize]

end Go

open Go

namespace Algorithm

variable {algorithm : Algorithm} {definitions : Definitions} {groups : LockGroups}
  {settings : Settings} {program : Program}

/-- With the locks in the program itself, every mutex that is used is declared. Under inferred
groups, every mutex that is declared is that of a label. -/
theorem toGo_mutexes (h : algorithm.toGo definitions groups settings = .ok program)
    (hlocking : settings.locking = .inProcess) :
    ∃ size, program.locks = .mutexes size ∧
      (∀ number, program.UsesMutex number → number < size ∧ program.DeclaresMutexes size) ∧
      ∀ atomicity, algorithm.inferAtomicity definitions = .ok atomicity →
        groups = atomicity.groups → ∀ number < size,
          ∃ label ∈ algorithm.labelUids, groups.groupOf? label = some ⟨number⟩ := by
  obtain ⟨strategy, hstrategy, hall⟩ := toGo_makesAll h
  obtain ⟨_, _, _, _, _, hlocks, _⟩ := toGo_parts h
  rw [hlocking] at hstrategy
  cases hstrategy
  rw [lockHome, hlocking] at hlocks
  have hlocks : program.locks = .mutexes groups.count := (Except.ok.inj hlocks).symm
  refine ⟨groups.count, hlocks, ?_, ?_⟩
  · intro number huses
    obtain ⟨function, hfunction, call, hcall, method, _, hcode⟩ := huses
    obtain ⟨source, _, _, imports, needed, hbody⟩ := hall.made function hfunction
    obtain ⟨hcallStrategy, label, _, hgroup⟩ := FunctionContext.calls_of_body hbody call hcall
    have hlt : call.group.index < groups.count := LockGroups.index_lt_count hgroup
    rw [SectionCall.number_of_code hcallStrategy hcode] at hlt
    exact ⟨hlt, Program.declaresMutexes hlocks (Nat.ne_zero_of_lt hlt)⟩
  · rintro atomicity hinfer rfl number hnumber
    exact lt_count_of_inferAtomicity hinfer hnumber

end Algorithm

/-! ## A registry with gaps

The only label has group 3, and group 9 has variables and no label. -/

private def lonely : Algorithm :=
  let mark (number : UInt32) : Mark := ⟨⟨number⟩, .unknown⟩
  ⟨"T", [], [⟨⟨1⟩, "x", some (.number ⟨2⟩ 0), .plain, .unknown⟩], [],
    [⟨⟨3⟩, "P", ⟨4⟩, .single (.number ⟨5⟩ 1), [],
      [.labeled (mark 6) ⟨⟨7⟩, "a"⟩
        [.assign (mark 8) [⟨.identifier ⟨9⟩ "x", .number ⟨10⟩ 1⟩]]]⟩]⟩

private def lonelyDefinitions : Definitions :=
  ⟨[⟨⟨1⟩, "x", .global .plain, .unknown⟩, ⟨⟨4⟩, "self", .processSelf, .unknown⟩], [(⟨9⟩, ⟨1⟩)]⟩

private def lonelyAtomicity : Atomicity :=
  ⟨⟨[(⟨7⟩, ⟨0⟩)], [], [(⟨0⟩, ⟨1⟩)]⟩, ⟨"T", [⟨⟨0⟩, ["P.a"], [], ["x"]⟩], []⟩, []⟩

private def gappedGroups : LockGroups := ⟨[(⟨7⟩, ⟨3⟩)], [], [(⟨9⟩, ⟨1⟩)]⟩

private def lonelyProgram (number : Nat) : Program :=
  ⟨"T", "main", .none, [.initialized "x" "0"], .mutexes (number + 1),
    [⟨"P", [], ⟨[.label "a", .leaf ⟨.inProcess, .acquire, ⟨number⟩⟩, .line "x = 1",
      .leaf ⟨.inProcess, .release, ⟨number⟩⟩], []⟩⟩], [.single "P" "1"]⟩

private theorem lonely_usesMutex (number : Nat) : (lonelyProgram number).UsesMutex number :=
  ⟨_, List.mem_cons_self, _, List.mem_cons_self, "Lock", List.mem_cons_self,
    SectionCall.code_inProcess .acquire ⟨number⟩⟩

theorem Algorithm.toGo_mutexes_gapped :
    lonely.toGo lonelyDefinitions gappedGroups .default = .ok (lonelyProgram 3) ∧
      (lonelyProgram 3).UsesMutex 3 ∧ (lonelyProgram 3).DeclaresMutexes 4 ∧
      lonely.inferAtomicity lonelyDefinitions = .ok lonelyAtomicity ∧
      lonely.toGo lonelyDefinitions lonelyAtomicity.groups .default = .ok (lonelyProgram 0) ∧
      ∃ label ∈ lonely.labelUids, lonelyAtomicity.groups.groupOf? label = some ⟨0⟩ := by
  have hgapped : lonely.toGo lonelyDefinitions gappedGroups .default = .ok (lonelyProgram 3) := by
    cbv
  have hinfer : lonely.inferAtomicity lonelyDefinitions = .ok lonelyAtomicity := by cbv
  have htoGo : lonely.toGo lonelyDefinitions lonelyAtomicity.groups .default =
      .ok (lonelyProgram 0) := by cbv
  refine ⟨hgapped, lonely_usesMutex 3, ?_, hinfer, htoGo, ?_⟩
  · obtain ⟨size, hsize, hdeclared, _⟩ := toGo_mutexes hgapped rfl
    cases hsize
    exact (hdeclared 3 (lonely_usesMutex 3)).2
  · obtain ⟨size, hsize, _, hassigned⟩ := toGo_mutexes htoGo rfl
    cases hsize
    exact hassigned lonelyAtomicity hinfer rfl 0 Nat.one_pos

end PlusCalGo
