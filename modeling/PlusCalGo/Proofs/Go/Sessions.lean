import PlusCalGo.Proofs.Go.Agreement
import PlusCalGo.Proofs.Go.Path

/-!
# Sessions of a tracker

A tracker is worked with in any way, successful or not: the group that is open is the group of the
current label, and what is written acquires one group after the other and leaves each before the
next.
-/

namespace PlusCalGo.Go

/-! ## Working with a tracker -/

/-- A step of work. The step `apply` takes one of the actions captured for the end of a loop. -/
inductive SessionStep where
  | declare (name : String)
  | start (label : Uid) (name : String)
  | close
  | abort
  | capture
  | apply (index : Nat)

/-- What is left of an operation, whether or not it went well. -/
def Emit.outcome (operation : Emit Unit) (emission : Emission) : Emission :=
  match operation emission with
  | .ok _ after | .error _ after => after

/-- A tracker with its code, and the labels captured for the ends of loops. -/
structure Session where
  emission : Emission
  captured : List (Option (Uid × String))

namespace Session

/-- A new tracker, and a builder that may hold code and labels already. -/
def begin (groups : Handle LockGroups) (strategy : Handle Strategy) (process : Uid)
    (builder : Builder SectionCall) : Session :=
  ⟨⟨.new groups strategy process, builder⟩, []⟩

def perform (session : Session) : SessionStep → Session
  | .declare name =>
    match session.emission.builder.declareLabel name with
    | .ok builder => { session with emission := { session.emission with builder } }
    | .error _ => session
  | .start label name =>
    { session with emission := (Emit.start label name).outcome session.emission }
  | .close => { session with emission := Emit.close.outcome session.emission }
  | .abort => { session with emission := Emit.abort.outcome session.emission }
  | .capture => { session with captured := session.captured ++ [session.emission.tracker.label] }
  | .apply index =>
    match session.captured[index]? with
    | some entry =>
      ⟨(Emit.endLoop entry).outcome session.emission, session.captured.eraseIdx index⟩
    | none => session

def run (session : Session) (steps : List SessionStep) : Session := steps.foldl perform session

end Session

/-! ## Sections in order -/

/-- The calls of a section that was opened and left. -/
def Strategy.sectionCalls (strategy : Strategy) (entry : LockGroup × SectionAction) :
    List SectionCall :=
  [⟨strategy, .acquire, entry.1⟩, ⟨strategy, entry.2, entry.1⟩]

/-- The call of a section that is open. -/
def Strategy.openCalls (strategy : Strategy) (group : Option LockGroup) : List SectionCall :=
  group.toList.map fun group => ⟨strategy, .acquire, group⟩

/-- The calls open one section after the other, and leave each of them, by a release or an abort,
before the next one. The last one is still open if a group is. -/
def Sectioned (strategy : Strategy) (openGroup : Option LockGroup) (calls : List SectionCall) :
    Prop :=
  ∃ left : List (LockGroup × SectionAction), (∀ entry ∈ left, entry.2 ≠ .acquire) ∧
    calls = left.flatMap strategy.sectionCalls ++ strategy.openCalls openGroup

section Sectioned

variable {strategy : Strategy} {group : LockGroup} {calls : List SectionCall}

theorem sectioned_nil : Sectioned strategy none [] := ⟨[], by simp, rfl⟩

theorem Sectioned.open (h : Sectioned strategy none calls) (group : LockGroup) :
    Sectioned strategy (some group) (calls ++ [⟨strategy, .acquire, group⟩]) := by
  obtain ⟨left, hleft, rfl⟩ := h
  exact ⟨left, hleft, by simp [Strategy.openCalls]⟩

theorem Sectioned.leave (h : Sectioned strategy (some group) calls) {action : SectionAction}
    (haction : action ≠ .acquire) :
    Sectioned strategy none (calls ++ [⟨strategy, action, group⟩]) := by
  obtain ⟨left, hleft, rfl⟩ := h
  refine ⟨left ++ [(group, action)], ?_, by simp [Strategy.openCalls, Strategy.sectionCalls]⟩
  intro entry hentry
  rcases List.mem_append.1 hentry with hold | hlast
  · exact hleft entry hold
  · rw [List.mem_singleton.1 hlast]
    exact haction

end Sectioned

/-! ## What work keeps -/

/-- What holds of a tracker and its code, given the groups, the strategy and the code it began
with. -/
structure Emission.Tracks (groups : Handle LockGroups) (strategy : Handle Strategy)
    (start : List SectionCode) (emission : Emission) : Prop where
  sameGroups : emission.tracker.groups = groups
  sameStrategy : emission.tracker.strategy = strategy
  /-- An open group is the group of the current label. -/
  labeled : ∀ group, emission.tracker.openGroup = some group → ∃ label name,
    emission.tracker.label = some (label, name) ∧ groups.value.groupOf? label = some group
  /-- A label that is kept while no group is open has none. -/
  unprotected : ∀ label name, emission.tracker.openGroup = none →
    emission.tracker.label = some (label, name) → groups.value.groupOf? label = none
  sectioned : ∃ added, emission.builder.current = start ++ added ∧
    Sectioned strategy.value emission.tracker.openGroup (Code.listLeaves added)

namespace Emission.Tracks

variable {groups : Handle LockGroups} {strategy : Handle Strategy} {start : List SectionCode}
  {tracker : Tracker} {builder : Builder SectionCall} {emission : Emission}

theorem new (groups : Handle LockGroups) (strategy : Handle Strategy) (process : Uid)
    (builder : Builder SectionCall) :
    Tracks groups strategy builder.current ⟨.new groups strategy process, builder⟩ where
  sameGroups := rfl
  sameStrategy := rfl
  labeled := by simp [Tracker.new]
  unprotected := by simp [Tracker.new]
  sectioned := ⟨[], by simp, sectioned_nil⟩

/-- Code without calls changes nothing. -/
theorem write (h : Tracks groups strategy start ⟨tracker, builder⟩) (code : List SectionCode)
    (hcode : Code.listLeaves code = []) {after : Builder SectionCall}
    (hafter : after.current = builder.current ++ code) :
    Tracks groups strategy start ⟨tracker, after⟩ := by
  obtain ⟨added, hadded, hsectioned⟩ := h.sectioned
  refine ⟨h.sameGroups, h.sameStrategy, h.labeled, h.unprotected, added ++ code, ?_, ?_⟩
  · rw [hafter, hadded, List.append_assoc]
  · rw [Code.listLeaves_append, hcode, List.append_nil]
    exact hsectioned

/-- The open section is left, and the tracker is idle. -/
theorem leave (h : Tracks groups strategy start ⟨tracker, builder⟩) (action : SectionAction)
    (haction : action ≠ .acquire) {after : Builder SectionCall}
    (hafter : after.current = builder.current ++
      (tracker.openGroup.toList.map fun group => ⟨strategy.value, action, group⟩).map .leaf) :
    Tracks groups strategy start ⟨tracker.idle, after⟩ := by
  obtain ⟨added, (hadded : builder.current = start ++ added), hsectioned⟩ := h.sectioned
  refine ⟨h.sameGroups, h.sameStrategy, by simp [Tracker.idle], by simp [Tracker.idle], ?_⟩
  cases hgroup : tracker.openGroup with
  | none =>
    simp only [hgroup] at hafter hsectioned
    exact ⟨added, by simp [hafter, hadded], hsectioned⟩
  | some group =>
    simp only [hgroup] at hafter hsectioned
    refine ⟨added ++ [.leaf ⟨strategy.value, action, group⟩], by simp [hafter, hadded], ?_⟩
    rw [Code.listLeaves_append]
    exact hsectioned.leave haction

/-- An idle tracker begins the step of a label. -/
theorem enter (h : Tracks groups strategy start emission)
    (hidle : emission.tracker.openGroup = none) (label : Uid) (name : String) :
    Tracks groups strategy start (emission.enter label name) := by
  obtain ⟨added, hadded, hsectioned⟩ := h.sectioned
  have hopen : (emission.tracker.entered label name).openGroup = groups.value.groupOf? label := by
    rw [← h.sameGroups]
    rfl
  rw [Emission.enter_eq _ label name hidle]
  refine ⟨h.sameGroups, h.sameStrategy, ?_, ?_,
    added ++ (emission.tracker.opening label).map .leaf, ?_, ?_⟩
  · intro group hgroup
    exact ⟨label, name, rfl, hopen.symm.trans hgroup⟩
  · rintro _ _ hnone ⟨⟩
    exact hopen.symm.trans hnone
  · simp [hadded]
  · rw [hidle] at hsectioned
    rw [hopen, Code.listLeaves_append, Tracker.opening, h.sameGroups, h.sameStrategy]
    cases groups.value.groupOf? label with
    | none => simpa [Code.listLeaves] using hsectioned
    | some group => exact hsectioned.open group

theorem close (h : Tracks groups strategy start emission) :
    Tracks groups strategy start emission.close := by
  rw [Emission.close_eq]
  apply h.leave .release (by decide)
  rw [Tracker.closing, h.sameStrategy]
  cases hgroup : emission.tracker.openGroup with
  | none => rfl
  | some group =>
    obtain ⟨label, name, hlabel, _⟩ := h.labeled group hgroup
    simp [hlabel]

theorem begin (h : Tracks groups strategy start emission) (label : Uid) (name : String) :
    Tracks groups strategy start ((Emit.start label name).outcome emission) := by
  -- Where starting fails, the section that was open before is closed all the same.
  have hclosed : Tracks groups strategy start
      (if emission.tracker.isOpen then emission.close else emission) ∧
      (if emission.tracker.isOpen then emission.close else emission).tracker.openGroup = none := by
    split
    · exact ⟨h.close, rfl⟩
    · rename_i hidle
      exact ⟨h, by simpa [Tracker.isOpen] using hidle⟩
  rw [Emit.outcome, Emit.start_eq]
  by_cases hcontinues : emission.tracker.continues label = true
  · simpa [hcontinues] using h
  · by_cases hname : name ∈ emission.builder.labels
    · simpa [hcontinues, hname] using hclosed.1.enter hclosed.2 label name
    · simpa [hcontinues, hname] using hclosed.1

theorem abort (h : Tracks groups strategy start emission) :
    Tracks groups strategy start (Emit.abort.outcome emission) := by
  rw [Emit.outcome, Emit.abort_eq]
  cases emission.tracker.label with
  | none => exact h
  | some label =>
    have hleft : Tracks groups strategy start ⟨emission.tracker.idle, { emission.builder with
        current := emission.builder.current ++ emission.tracker.aborting.map .leaf }⟩ := by
      apply h.leave .abort (by decide)
      rw [Tracker.aborting, h.sameStrategy]
      cases emission.tracker.openGroup <;> rfl
    exact hleft.write [.goto label.2] rfl rfl

theorem endLoop (h : Tracks groups strategy start emission) (entry : Option (Uid × String)) :
    Tracks groups strategy start ((Emit.endLoop entry).outcome emission) := by
  cases entry with
  | none => exact h.close
  | some entry => exact h.begin entry.1 entry.2

theorem declare (h : Tracks groups strategy start emission) {name : String}
    {builder : Builder SectionCall}
    (hbuilder : emission.builder.declareLabel name = .ok builder) :
    Tracks groups strategy start { emission with builder } := by
  simp only [Builder.declareLabel] at hbuilder
  split at hbuilder
  · simp at hbuilder
  · cases hbuilder
    exact h.write [.label name] rfl rfl

theorem perform {session : Session} (h : Tracks groups strategy start session.emission)
    (step : SessionStep) : Tracks groups strategy start (session.perform step).emission := by
  cases step with
  | declare name =>
    simp only [Session.perform]
    split
    · rename_i hbuilder
      exact h.declare hbuilder
    · exact h
  | start label name => exact h.begin label name
  | close => exact h.close
  | abort => exact h.abort
  | capture => exact h
  | apply index =>
    simp only [Session.perform]
    split
    · rename_i entry _
      exact h.endLoop entry
    · exact h

end Emission.Tracks

/-- However a tracker is worked with, an open group is that of the current label, a label that is
kept while nothing is open has no group, and the calls it wrote open and leave one section after the
other, the last one being open if the tracker is. -/
theorem Session.run_tracks (groups : Handle LockGroups) (strategy : Handle Strategy) (process : Uid)
    (builder : Builder SectionCall) (steps : List SessionStep) :
    ((Session.begin groups strategy process builder).run steps).emission.Tracks groups strategy
      builder.current := by
  suffices hrun : ∀ session : Session, session.emission.Tracks groups strategy builder.current →
      (session.run steps).emission.Tracks groups strategy builder.current from
    hrun _ (.new groups strategy process builder)
  induction steps with
  | nil => exact fun _ h => h
  | cons step rest ih => exact fun session h => ih _ (h.perform step)

end PlusCalGo.Go
