import PlusCalGo.Proofs.Go.Guards
import PlusCalGo.Proofs.Go.Mutexes
import PlusCalGo.Proofs.Go.Sessions
import PlusCalGo.Proofs.Go.Staying

/-!
# Statements that lock

The calls of sections are written out as statements that lock and unlock a mutex or ask the state
service to. Marks behind these statements tell which of them a path has passed, so what is true of
the calls is true of the statements in the finished code.
-/

namespace PlusCalGo

namespace Go

variable {κ ι : Type}

/-! ## The statements of a call -/

namespace SectionCall

/-- The statement of a call that locks or unlocks. -/
def lockStatement (call : SectionCall) : Code κ :=
  match call.strategy with
  | .inProcess => .line (mutexLine call.group.index call.action.method)
  | .coordinated _ => checkedCall (serviceCall call.action.method call.group)

/-- The statements of a call, with some code behind the one that locks or unlocks. -/
def markedCode (call : SectionCall) (mark : List (Code κ)) : List (Code κ) :=
  call.stores.map storeGlobal ++ call.lockStatement :: (mark ++ call.loads.map loadGlobal)

theorem markedCode_nil (call : SectionCall) :
    call.markedCode [] = (call.code : List (Code κ)) := by
  obtain ⟨strategy, action, group⟩ := call
  cases strategy with
  | inProcess =>
    rw [code_inProcess]
    cases action <;> rfl
  | coordinated shared =>
    rw [code_coordinated]
    rfl

end SectionCall

namespace Code

theorem listExpand_map {α : Type} {write : κ → List (Code ι)} {before : α → Code κ}
    {after : α → Code ι} (h : ∀ item, (before item).expand write = [after item])
    (items : List α) : listExpand write (items.map before) = items.map after := by
  induction items with
  | nil => rfl
  | cons item rest ih =>
    rw [List.map_cons, listExpand, h, ih]
    rfl

theorem listLeaves_map {α : Type} {code : α → Code κ} (h : ∀ item, (code item).leaves = [])
    (items : List α) : listLeaves (items.map code) = [] := by
  induction items with
  | nil => rfl
  | cons item rest ih => rw [List.map_cons, listLeaves, h, ih, List.nil_append]

theorem listFlows_map {α : Type} {rule : FlowRule κ} {exit held : Option LockGroup}
    {code : α → Code κ} (h : ∀ item, (code item).Flows rule exit held held) (items : List α) :
    ListFlows rule exit held (items.map code) held := by
  induction items with
  | nil => rfl
  | cons item rest ih => exact ⟨held, h item, ih⟩

end Code

namespace SectionCall

/-- Writing leaves out changes the mark alone. -/
theorem listExpand_markedCode (write : κ → List (Code ι)) (call : SectionCall)
    (mark : List (Code κ)) :
    Code.listExpand write (call.markedCode mark) =
      call.markedCode (Code.listExpand write mark) := by
  have hlock : (call.lockStatement : Code κ).expand write = [call.lockStatement] := by
    unfold lockStatement
    cases call.strategy <;> rfl
  rw [markedCode, Code.listExpand_append, Code.listExpand, Code.listExpand_append, hlock,
    Code.listExpand_map (fun _ => rfl), Code.listExpand_map (fun _ => rfl)]
  rfl

theorem leaves_markedCode (call : SectionCall) (mark : List (Code κ)) :
    Code.listLeaves (call.markedCode mark) = Code.listLeaves mark := by
  have hlock : (call.lockStatement : Code κ).leaves = [] := by
    unfold lockStatement
    cases call.strategy <;> rfl
  rw [markedCode, Code.listLeaves_append, Code.listLeaves, Code.listLeaves_append, hlock,
    Code.listLeaves_map (fun _ => rfl), Code.listLeaves_map (fun _ => rfl), List.nil_append,
    List.nil_append, List.append_nil]

/-- What is held changes at the mark alone. -/
theorem flows_markedCode {rule : FlowRule κ} {exit before after : Option LockGroup}
    {mark : List (Code κ)} (call : SectionCall)
    (hmark : Code.ListFlows rule exit before mark after) :
    Code.ListFlows rule exit before (call.markedCode mark) after := by
  have hpanic (held : Option LockGroup) :
      Code.ListFlows rule exit held [.line "panic(err)"] held :=
    listFlows_line ⟨by decide, by decide⟩
  have hcall (held : Option LockGroup) (text : String) :
      (checkedCall text : Code κ).Flows rule exit held held := ⟨hpanic held, rfl⟩
  have hload (held : Option LockGroup) (name : String) :
      (loadGlobal name : Code κ).Flows rule exit held held := by
    have hline : PlainLine (name ++ " = pgoValue") := plainLine_of_mem ' ' (by simp) (by decide)
    exact ⟨hpanic held, listFlows_line hline⟩
  have hlock : (call.lockStatement : Code κ).Flows rule exit before before := by
    unfold lockStatement
    cases call.strategy with
    | inProcess => exact flows_line (plainLine_of_mem '[' (by simp [mutexLine]) (by decide))
    | coordinated shared => exact hcall before _
  have hstores : Code.ListFlows rule exit before (call.stores.map storeGlobal) before :=
    Code.listFlows_map (fun _ => hcall before _) call.stores
  have hloads : Code.ListFlows rule exit after (call.loads.map loadGlobal) after :=
    Code.listFlows_map (hload after) call.loads
  exact Code.listFlows_append.2 ⟨before, hstores, before, hlock,
    Code.listFlows_append.2 ⟨after, hmark, hloads⟩⟩

end SectionCall

/-! ## Written code with marks -/

namespace Code

/-- A call is written out and stays as a mark behind the statement that locks or unlocks for it.
Other leaves stay as they are. -/
def writeMarked (call? : κ → Option SectionCall) (content : κ) : List (Code κ) :=
  match call? content with
  | some call => call.markedCode [.leaf content]
  | none => [.leaf content]

/-- The code with its calls written out and marked. -/
def listWritten (call? : κ → Option SectionCall) (code : List (Code κ)) : List (Code κ) :=
  listExpand (writeMarked call?) code

/-- The code without its leaves. -/
def listBare (code : List (Code κ)) : List PlainCode := listFilterMap (fun _ => none) code

/-- The marks are the calls, in the same order. -/
theorem leaves_listWritten (call? : κ → Option SectionCall) (code : List (Code κ)) :
    listLeaves (listWritten call? code) = listLeaves code := by
  have hwrite (content : κ) : listLeaves (writeMarked call? content) = [content] := by
    unfold writeMarked
    cases call? content with
    | none => rfl
    | some call => exact call.leaves_markedCode _
  rw [listWritten, leaves_listExpand]
  simp only [hwrite, List.flatMap_singleton']

/-- Without marks the calls are written out, and nothing else is. -/
theorem bare_listWritten (call? : κ → Option SectionCall) (code : List (Code κ)) :
    listBare (listWritten call? code) =
      listExpand (fun content => ((call? content).map SectionCall.code).getD []) code := by
  rw [listBare, listFilterMap, listWritten, listExpand_listExpand]
  congr 1
  funext content
  unfold writeMarked
  cases call? content with
  | none => rfl
  | some call =>
    rw [SectionCall.listExpand_markedCode]
    exact call.markedCode_nil

end Code

def Point.bare (point : Point κ) : Point Empty := point.filterMap fun _ => none

/-- The statements are the marked code without its marks. Wherever a path through the marked code
has come to, it goes on the way that the statements go, and passes the marks on that way. -/
structure Marks (lands : String → Prop) (code : List (Code κ)) (plain : List PlainCode) :
    Prop where
  bare : Code.listBare code = plain
  follows : ∀ passed marked point, Path lands code passed marked →
    Step lands plain marked.bare none point →
      ∃ further next, Path lands code (passed ++ further) next ∧ next.bare = point

theorem marks_of_bare {lands : String → Prop} {code : List (Code κ)} {plain : List PlainCode}
    (hbare : Code.listBare code = plain) : Marks lands code plain := by
  refine ⟨hbare, fun passed marked point hpath hstep => ?_⟩
  rw [← hbare] at hstep
  obtain ⟨further, next, hnext, _, hpoint⟩ := hpath.follow_filterMap hstep
  exact ⟨further, next, hnext, hpoint⟩

/-- A path through the statements of balanced code, told by the calls whose statements it passes,
has released everything where nothing may be held. -/
theorem Marks.idle {targets : List String} {code : List SectionCode} {plain : List PlainCode}
    (h : Marks (· ∈ targets) code plain) (hbalanced : Balanced targets code)
    {passed : List Empty} {point : Point Empty} (hpath : Path (· ∈ targets) plain passed point)
    (hidle : point.NeedsIdle targets) :
    ∃ calls marked, Path (· ∈ targets) code calls marked ∧ marked.bare = point ∧
      replay none calls = some none := by
  rw [← h.bare] at hpath
  obtain ⟨calls, marked, hmarked, _, rfl, hshows⟩ := hpath.lift_filterMap
  obtain ⟨held, hreplay, hheld⟩ := hbalanced calls marked hmarked
  rw [hheld (hidle.of_filterMap hshows)] at hreplay
  exact ⟨calls, marked, hmarked, rfl, hreplay⟩

namespace NotedCode

/-- Without remarks, the written code is that of the calls. -/
theorem erase_listWritten (code : NotedCode) :
    erase (Code.listWritten Note.call? code) = Code.listWritten some code.erase := by
  rw [erase, erase, Code.listWritten, Code.listWritten, Code.listExpand_listExpand,
    Code.listExpand_listExpand]
  congr 1
  funext note
  cases note with
  | call call =>
    have hmarked : Code.writeMarked Note.call? (.call call) =
        call.markedCode [.leaf (.call call)] := rfl
    rw [hmarked, SectionCall.listExpand_markedCode]
    exact (List.append_nil _).symm
  | remark remark => rfl

/-- Without its leaves, it is the finished code. -/
theorem bare_listWritten (code : NotedCode) :
    Code.listBare (Code.listWritten Note.call? code) =
      Code.listExpand SectionCall.code code.erase := by
  rw [Code.bare_listWritten, erase, Code.listExpand_listExpand]
  congr 1
  funext note
  cases note with
  | call call => exact (List.append_nil _).symm
  | remark remark => rfl

end NotedCode

/-- What is held along the code is held along the written code. -/
theorem flows_listWritten {lands : String → Prop} {code : NotedCode}
    {exit before after : Option LockGroup}
    (h : Code.ListFlows (lockRule lands) exit before code after) :
    Code.ListFlows (lockRule lands) exit before (Code.listWritten Note.call? code) after := by
  refine Code.flows_listExpand (fun _ hname => hname) ?_ code h
  intro exit note before after hmoves
  have hmark : Code.ListFlows (lockRule lands) exit before [.leaf note] after :=
    ⟨after, hmoves, rfl⟩
  cases note with
  | call call => exact call.flows_markedCode hmark
  | remark remark => exact hmark

/-! ## Functions -/

/-- In every finished function, statements lock and unlock in turn on every path, and no lock is
held where control jumps, returns, comes to the label of a jump, or ends. A path may even go on
behind a panic, where no run does. -/
theorem FunctionContext.body_locks {context : FunctionContext} {imports needed : Imports}
    {owner : Uid} {locals : List VariableDecl} {body : List Statement}
    {result : FunctionBody SectionCall}
    (h : context.body imports owner locals body = .ok (result, needed)) :
    Marks (· ∈ Statement.listJumpTargets body) (Code.listWritten some result.code)
        (result.expand SectionCall.code).code ∧
      Balanced (Statement.listJumpTargets body) (Code.listWritten some result.code) ∧
      ∀ passed point, Path (· ∈ Statement.listJumpTargets body)
          (result.expand SectionCall.code).code passed point →
        point.NeedsIdle (Statement.listJumpTargets body) →
          ∃ calls marked, Path (· ∈ Statement.listJumpTargets body)
              (Code.listWritten some result.code) calls marked ∧
            marked.bare = point ∧ replay none calls = some none := by
  obtain ⟨code, progress, hnoted, hresult, _⟩ := noted_of_body h
  have hflows := flows_listWritten (noted_flows hnoted (noted_fits hnoted))
  have hmarks : Marks (· ∈ Statement.listJumpTargets body) (Code.listWritten some code.erase)
      (Code.listExpand SectionCall.code code.erase) :=
    marks_of_bare (Code.bare_listWritten some code.erase)
  have hbalanced :
      Balanced (Statement.listJumpTargets body) (Code.listWritten some code.erase) := by
    rw [← NotedCode.erase_listWritten]
    exact balanced_of_flows hflows
  rw [FunctionBody.expand, hresult]
  exact ⟨hmarks, hbalanced, fun _ _ hpath hidle => hmarks.idle hbalanced hpath hidle⟩

/-! ## Single statements -/

/-- However a tracker is worked with, the statements that its calls are written out as lock and
unlock one group after the other. -/
theorem Emission.Tracks.locks {groups : Handle LockGroups} {strategy : Handle Strategy}
    {start : List SectionCode} {emission : Emission} (h : emission.Tracks groups strategy start) :
    ∃ added, emission.builder.current = start ++ added ∧
      Code.listBare (Code.listWritten some added) = Code.listExpand SectionCall.code added ∧
      Sectioned strategy.value emission.tracker.openGroup
        (Code.listLeaves (Code.listWritten some added)) := by
  obtain ⟨added, hadded, hsectioned⟩ := h.sectioned
  rw [← Code.leaves_listWritten some] at hsectioned
  exact ⟨added, hadded, Code.bare_listWritten some added, hsectioned⟩

/-- A statement that transfers no control locks and unlocks where an `await` in it retries the step,
and nowhere else. -/
theorem FunctionContext.lowerStatement_locks {context : FunctionContext} {imports : Imports}
    {source : Source} {visit : Visit} (hvisits : context.Visits imports source visit)
    {statement : Statement} (hstays : statement.transfersControl = false)
    {before after : Lowering} (hbefore : before.progress = visit.state)
    (hlower : lowerStatement context.definitions (Statement.listJumpTargets source.body) statement
      before = .ok () after) :
    ∃ added, after.emission.builder.current = before.emission.builder.current ++ added ∧
      Code.ListConfined (Code.WrittenFor (Code.writeMarked some)
          (Retries context.definitions before.emission.tracker [statement]))
        (Code.listWritten some added) := by
  obtain ⟨code, progress, _, rfl, hconfined⟩ := confined_of_visits hvisits hstays hbefore hlower
  refine ⟨code.erase, rfl, Code.confined_listExpand ?_ code.erase hconfined⟩
  rintro call ⟨_, _, _, _, _, _, _, _, _, hbranch⟩
  cases hbranch

end Go

open Go

/-- In every finished function whose labels follow labels, everything is evaluated while the lock is
held that the innermost label has, and procedures are called while none is. -/
theorem Algorithm.toGo_locks {algorithm : Algorithm} {definitions : Definitions}
    {atomicity : Atomicity} {settings : Settings} {program : Program}
    (hresolve : algorithm.resolve = .ok definitions)
    (hinfer : algorithm.inferAtomicity definitions = .ok atomicity)
    (hgo : algorithm.toGo definitions atomicity.groups settings = .ok program)
    (hfollow : ∀ source ∈ algorithm.sources,
      Statement.Throughout Statement.LabelsFollow source.body) :
    ∀ function ∈ program.functions, ∃ source ∈ algorithm.sources,
      ∃ context : FunctionContext, context.groups = atomicity.groups ∧
        ∃ imports code progress,
          context.noted imports source.owner source.locals source.body = .ok (code, progress) ∧
          Marks (· ∈ Statement.listJumpTargets source.body) (Code.listWritten Note.call? code)
            (function.body.expand SectionCall.code).code ∧
          Guards algorithm atomicity.groups (Statement.listJumpTargets source.body)
            (Code.listWritten Note.call? code) ∧
          CallsIdle (Statement.listJumpTargets source.body)
            (Code.listWritten Note.call? code) := by
  obtain ⟨context, _, hgroups, hmakes⟩ := Algorithm.toGo_makes hgo
  intro function hfunction
  obtain ⟨source, hsource, imports, needed, hbody⟩ := hmakes function hfunction
  obtain ⟨code, progress, hnoted, hresult, _⟩ := FunctionContext.noted_of_body hbody
  have hprotected :=
    protected_of_source hresolve hinfer hgroups hsource (hfollow source hsource) hnoted
  rw [← Code.leaves_listWritten Note.call?] at hprotected
  have hflows := flows_listWritten
    (FunctionContext.noted_flows hnoted (FunctionContext.noted_fits hnoted))
  refine ⟨source, hsource, context, hgroups, imports, code, progress, hnoted, ?_,
    guards_of_flows hresolve hinfer hprotected hflows, callsIdle_of_flows hflows⟩
  rw [FunctionBody.expand, hresult]
  exact marks_of_bare code.bare_listWritten

end PlusCalGo
