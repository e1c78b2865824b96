import PlusCalGo.Proofs.Go.Arrivals
import PlusCalGo.Proofs.Go.Erasure

/-!
# Lock balance

On every path through a function, locks are acquired and released in turn, and none is held where
control leaves.
-/

namespace PlusCalGo.Go

section Functions

variable {context : FunctionContext} {imports : Imports} {owner : Uid}
  {locals : List VariableDecl} {body : List Statement} {code : NotedCode} {after : Progress}

theorem PlainLines.flows {rule : FlowRule Note} {exit held : Option LockGroup}
    (h : PlainLines code) : Code.ListFlows rule exit held code held := by
  obtain ⟨texts, rfl, htexts⟩ := h
  induction texts with
  | nil => rfl
  | cons text rest ih =>
    have hrest := ih fun other hother => htexts other (List.mem_cons_of_mem text hother)
    exact ⟨held, flows_line (htexts text List.mem_cons_self), hrest⟩

theorem PlainLines.leaves (h : PlainLines code) : Code.listLeaves code = [] := by
  obtain ⟨texts, rfl, -⟩ := h
  induction texts with
  | nil => rfl
  | cons text rest ih => exact ih

theorem PlainLines.everywhere {known : Note → Prop} {targets : List String} (h : PlainLines code) :
    Code.ListEverywhere (Placed known targets) code := by
  obtain ⟨texts, rfl, -⟩ := h
  induction texts with
  | nil => trivial
  | cons text rest ih => exact ⟨trivial, trivial, ih⟩

theorem leaves_ofCalls (calls : List SectionCall) :
    Code.listLeaves (NotedCode.ofCalls calls) = calls.map .call := by
  induction calls with
  | nil => rfl
  | cons call rest ih =>
    simp only [NotedCode.ofCalls, List.map_cons, Code.listLeaves, Code.leaves] at ih ⊢
    rw [ih]
    rfl

namespace FunctionContext

theorem start_ready (context : FunctionContext) (imports : Imports) (owner : Uid)
    (known : Note → Prop) :
    (context.start imports owner).tracker.Ready context.groups known :=
  ⟨⟨rfl, by simp [start, Tracker.new]⟩, by simp [start, Tracker.new]⟩

/-- A whole function flows from nothing held to nothing held. -/
theorem noted_flows {lands : String → Prop}
    (h : context.noted imports owner locals body = .ok (code, after))
    (hfits : ∀ note ∈ Code.listLeaves code, note.Fits lands) :
    Code.ListFlows (lockRule lands) none none code none := by
  obtain ⟨front, inner, last, hfront, hinner, _, rfl⟩ := noted_ok h
  have hsteady := (context.start_ready imports owner fun _ => True).1
  obtain ⟨hlast, hinner⟩ := bridges_statements lands context.groups body hinner hsteady
  have hleaves : ∀ note ∈ Code.listLeaves inner, note.Fits lands := by
    intro note hnote
    apply hfits
    rw [Code.listLeaves_append, Code.listLeaves_append]
    exact List.mem_append_right _ (List.mem_append_left _ hnote)
  have hinner := hinner hleaves none
  exact Code.listFlows_append.2 ⟨none, hfront.flows,
    Code.listFlows_append.2 ⟨_, hinner, listFlows_closing hlast⟩⟩

theorem noted_places (h : context.noted imports owner locals body = .ok (code, after)) :
    Code.ListEverywhere (Placed (· ∈ Code.listLeaves code) (Statement.listJumpTargets body))
      code := by
  obtain ⟨front, inner, last, hfront, hinner, _, rfl⟩ := noted_ok h
  have hknown : ∀ note ∈ Code.listLeaves inner,
      note ∈ Code.listLeaves (front ++ (inner ++ NotedCode.ofCalls last.tracker.closing)) := by
    intro note hnote
    rw [Code.listLeaves_append, Code.listLeaves_append]
    exact List.mem_append_right _ (List.mem_append_left _ hnote)
  have hready := context.start_ready imports owner
    (· ∈ Code.listLeaves (front ++ (inner ++ NotedCode.ofCalls last.tracker.closing)))
  obtain ⟨_, hinner⟩ := places_statements context.groups _ body (fun _ hname => hname) hinner
    hknown hready
  exact everywhere_append hfront.everywhere (everywhere_append hinner (everywhere_ofCalls _))

theorem noted_fits (h : context.noted imports owner locals body = .ok (code, after)) :
    ∀ note ∈ Code.listLeaves code, note.Fits (· ∈ Statement.listJumpTargets body) := by
  intro note hnote
  obtain ⟨more, hplaced⟩ := Code.ListEverywhere.leaf code (noted_places h) hnote
  cases note with
  | call call => trivial
  | remark remark =>
    obtain ⟨held, label?, subject⟩ := remark
    cases subject with
    | arrives label enters => exact hplaced
    | evaluates expressions => trivial
    | calls arguments => trivial
    | retries => trivial

end FunctionContext

end Functions

/-! ## Paths -/

/-- Places at which nothing may be held: jumps, the labels they go to, `return`, and the end. -/
def Point.NeedsIdle {κ : Type} (targets : List String) : Point κ → Prop
  | ⟨.goto _ :: _, _⟩ => True
  | ⟨.label name :: _, _⟩ => name ∈ targets
  | ⟨.line text :: _, _⟩ => text = "return"
  | ⟨[], []⟩ => True
  | _ => False

/-- Leaving leaves out that do not come first does not change what is needed. -/
theorem Point.NeedsIdle.of_filterMap {κ ι : Type} {keep : κ → Option ι} {targets : List String}
    {point : Point κ} (hshows : point.Shows keep) (h : (point.filterMap keep).NeedsIdle targets) :
    point.NeedsIdle targets := by
  obtain ⟨code, frames⟩ := point
  rcases code with _ | ⟨code, rest⟩
  · cases frames with
    | nil => trivial
    | cons frame frames => exact h
  · cases code with
    | line text => exact h
    | label name => exact h
    | goto name => trivial
    | branch condition yes no => exact h
    | loop body => exact h
    | switch subject cases => exact h
    | block body => exact h
    | leaf content =>
      obtain ⟨kept, hkept⟩ := Option.ne_none_iff_exists'.1 (hshows content rest rfl)
      rw [Point.filterMap, Code.listFilterMap_leaf, hkept] at h
      exact h

theorem Point.Flows.idle {κ : Type} {rule : FlowRule κ} {targets : List String}
    {held : Option LockGroup} {point : Point κ} (h : point.Flows rule held)
    (hlands : ∀ name ∈ targets, rule.lands name) (hidle : point.NeedsIdle targets) :
    held = none := by
  obtain ⟨code, frames⟩ := point
  obtain ⟨exit, last, hcode, hframes⟩ := h
  rcases code with _ | ⟨code, rest⟩
  · cases frames with
    | nil =>
      have hlast : last = held := hcode
      rw [← hlast]
      exact hframes
    | cons frame frames => exact hidle.elim
  · obtain ⟨between, hcode, _⟩ := hcode
    cases code with
    | line text =>
      have htext : text = "return" := hidle
      subst htext
      exact hcode
    | label name => exact hcode.1 (hlands name hidle)
    | goto name => exact hcode
    | branch condition yes no => exact hidle.elim
    | loop body => exact hidle.elim
    | switch subject cases => exact hidle.elim
    | block body => exact hidle.elim
    | leaf content => exact hidle.elim

/-- Every path through the code that jumps to the targets alone can be followed from nothing held,
and nothing is held where it jumps, returns, comes to a target, or ends. -/
def Balanced (targets : List String) (code : List SectionCode) : Prop :=
  ∀ passed point, Path (· ∈ targets) code passed point →
    ∃ held, replay none passed = some held ∧ (point.NeedsIdle targets → held = none)

/-- Every such path comes to the calls of procedures with nothing held. -/
def CallsIdle (targets : List String) (code : NotedCode) : Prop :=
  ∀ notes point, Path (· ∈ targets) code notes point → ∀ remark rest arguments,
    point.code = .leaf (.remark remark) :: rest → remark.subject = .calls arguments →
      replay none (callsOf notes) = some none

/-- The code is the other one with remarks, and so are its paths. -/
def Covers (lands : String → Prop) (code : NotedCode) (plain : List SectionCode) : Prop :=
  code.erase = plain ∧ ∀ passed point, Path lands plain passed point →
    ∃ notes noted, Path lands code notes noted ∧ callsOf notes = passed ∧ noted.erase = point ∧
      ∀ remark rest, noted.code ≠ .leaf (.remark remark) :: rest

theorem covers_erase (lands : String → Prop) (code : NotedCode) : Covers lands code code.erase :=
  ⟨rfl, fun _ _ hpath => hpath.lift⟩

section Balance

variable {targets : List String} {code : NotedCode}

theorem balanced_of_flows
    (h : Code.ListFlows (lockRule (· ∈ targets)) none none code none) :
    Balanced targets code.erase := by
  intro passed point hpath
  rw [NotedCode.erase_eq] at hpath
  obtain ⟨notes, noted, hnotes, rfl, rfl, hshows⟩ := hpath.lift_filterMap
  obtain ⟨held, hpoint, hfollows⟩ := hnotes.flows h
  refine ⟨held, ?_, fun hidle => hpoint.idle (fun _ hname => hname) (hidle.of_filterMap hshows)⟩
  rw [← callsOf_eq]
  exact follows_replay hfollows

theorem callsIdle_of_flows
    (h : Code.ListFlows (lockRule (· ∈ targets)) none none code none) : CallsIdle targets code := by
  intro notes point hpath remark rest arguments hcode hsubject
  obtain ⟨_, frames⟩ := point
  subst hcode
  obtain ⟨held, ⟨_, _, ⟨_, hremark, _⟩, _⟩, hnotes⟩ := hpath.flows h
  obtain ⟨hheld, _, hidle⟩ := hremark
  rw [Remark.Idle, hsubject] at hidle
  have hreplay := follows_replay hnotes
  rw [hheld, hidle] at hreplay
  exact hreplay

end Balance

/-- Every function is balanced. Which of its lines call procedures is known from the same code with
remarks. -/
theorem FunctionContext.body_balanced {context : FunctionContext} {imports needed : Imports}
    {owner : Uid} {locals : List VariableDecl} {body : List Statement}
    {result : FunctionBody SectionCall}
    (h : context.body imports owner locals body = .ok (result, needed)) :
    Balanced (Statement.listJumpTargets body) result.code ∧
      ∃ code progress, context.noted imports owner locals body = .ok (code, progress) ∧
        Covers (· ∈ Statement.listJumpTargets body) code result.code ∧
        CallsIdle (Statement.listJumpTargets body) code := by
  obtain ⟨code, progress, hnoted, hresult, _⟩ := noted_of_body h
  have hflows := noted_flows hnoted (noted_fits hnoted)
  rw [hresult]
  exact ⟨balanced_of_flows hflows, code, progress, hnoted, covers_erase _ code,
    callsIdle_of_flows hflows⟩

/-! ## A loop

In the step `a`, which has group 0, a loop calls the procedure `Q` and goes through the step `b`,
which has group 1, back to the beginning. -/

private def loopContext : FunctionContext :=
  ⟨.empty, ⟨[(⟨1⟩, ⟨0⟩), (⟨2⟩, ⟨1⟩)], [], []⟩, .inProcess, []⟩

private def loopBody : List Statement :=
  let mark : Mark := ⟨⟨0⟩, .unknown⟩
  [.labeled mark ⟨⟨1⟩, "a"⟩ [.whileDo mark (.bool ⟨0⟩ true) [.print mark (.bool ⟨0⟩ true),
    .call mark "Q" [], .labeled mark ⟨⟨2⟩, "b"⟩ [.goto mark "a"]]]]

private def loopCode : List SectionCode :=
  [.label "a", .leaf ⟨.inProcess, .acquire, ⟨0⟩⟩,
    .loop [.branch "!true" [.line "break"] [], .line "fmt.Println(true)",
      .leaf ⟨.inProcess, .release, ⟨0⟩⟩, .line "Q(self)", .label "b",
      .leaf ⟨.inProcess, .acquire, ⟨1⟩⟩, .leaf ⟨.inProcess, .release, ⟨1⟩⟩, .goto "a",
      .leaf ⟨.inProcess, .acquire, ⟨0⟩⟩],
    .leaf ⟨.inProcess, .release, ⟨0⟩⟩]

theorem FunctionContext.body_balanced_loop :
    loopContext.body .none ⟨0⟩ [] loopBody = .ok (⟨loopCode, ["a"]⟩, ⟨true, false⟩) ∧
      Balanced ["a"] loopCode := by
  have hbody : loopContext.body .none ⟨0⟩ [] loopBody = .ok (⟨loopCode, ["a"]⟩, ⟨true, false⟩) := by
    cbv
  exact ⟨hbody, (body_balanced hbody).1⟩

end PlusCalGo.Go
