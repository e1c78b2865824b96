import Mathlib.Data.List.Forall2
import PlusCalGo.Proofs.Go.Agreement
import PlusCalGo.Proofs.Renaming.Resolution

/-!
# Two lowerings side by side

A body is lowered twice: the second time with other uids, and with another strategy. Both take the
same steps. They stop at the same problem, or come to states that differ in the uids and in the
strategy that makes the calls.
-/

namespace PlusCalGo.Go

/-! ## Marks -/

/-- Code in which the calls of a strategy are only named. -/
abbrev MarkedCode := Code (SectionAction × LockGroup)

/-- The calls of a strategy in place of the marks that name them. -/
def Strategy.calls (strategy : Strategy) (code : List MarkedCode) : List SectionCode :=
  Code.listExpand (fun (action, group) => [.leaf ⟨strategy, action, group⟩]) code

theorem Strategy.calls_append (strategy : Strategy) (first second : List MarkedCode) :
    strategy.calls (first ++ second) = strategy.calls first ++ strategy.calls second := by
  induction first with
  | nil => rfl
  | cons code rest ih =>
    simp only [calls, List.cons_append, Code.listExpand, List.append_assoc] at ih ⊢
    rw [ih]

/-- What the second lowering has in place of what the first one has. -/
structure Variation where
  rename : Renaming
  first : Strategy
  second : Strategy

namespace Variation

variable (v : Variation)

/-! ## Code -/

/-- Both are the same marked code, under the calls of the one strategy and of the other. -/
def Codes (code other : List SectionCode) : Prop :=
  ∃ marked, code = v.first.calls marked ∧ other = v.second.calls marked

section Codes

variable {v} {code other rest others : List SectionCode}

theorem Codes.nil : v.Codes [] [] := ⟨[], rfl, rfl⟩

theorem Codes.append (hcode : v.Codes code other) (hrest : v.Codes rest others) :
    v.Codes (code ++ rest) (other ++ others) := by
  obtain ⟨marked, rfl, rfl⟩ := hcode
  obtain ⟨more, rfl, rfl⟩ := hrest
  exact ⟨marked ++ more, (v.first.calls_append _ _).symm, (v.second.calls_append _ _).symm⟩

theorem Codes.line (text : String) : v.Codes [.line text] [.line text] :=
  ⟨[.line text], rfl, rfl⟩

theorem Codes.label (name : String) : v.Codes [.label name] [.label name] :=
  ⟨[.label name], rfl, rfl⟩

theorem Codes.goto (name : String) : v.Codes [.goto name] [.goto name] :=
  ⟨[.goto name], rfl, rfl⟩

theorem Codes.call (action : SectionAction) (group : LockGroup) :
    v.Codes [.leaf ⟨v.first, action, group⟩] [.leaf ⟨v.second, action, group⟩] :=
  ⟨[.leaf (action, group)], rfl, rfl⟩

theorem Codes.branch (condition : String) (hcode : v.Codes code other)
    (hrest : v.Codes rest others) :
    v.Codes [.branch condition code rest] [.branch condition other others] := by
  obtain ⟨marked, rfl, rfl⟩ := hcode
  obtain ⟨more, rfl, rfl⟩ := hrest
  exact ⟨[.branch condition marked more], rfl, rfl⟩

theorem Codes.loop (hcode : v.Codes code other) : v.Codes [.loop code] [.loop other] := by
  obtain ⟨marked, rfl, rfl⟩ := hcode
  exact ⟨[.loop marked], rfl, rfl⟩

theorem Codes.block (hcode : v.Codes code other) : v.Codes [.block code] [.block other] := by
  obtain ⟨marked, rfl, rfl⟩ := hcode
  exact ⟨[.block marked], rfl, rfl⟩

theorem Codes.switch (subject : String) {cases otherCases : List (List SectionCode)}
    (h : List.Forall₂ v.Codes cases otherCases) :
    v.Codes [.switch subject cases] [.switch subject otherCases] := by
  have hcases : ∃ marked : List (List MarkedCode), cases = marked.map v.first.calls ∧
      otherCases = marked.map v.second.calls := by
    induction h with
    | nil => exact ⟨[], rfl, rfl⟩
    | cons hbody _ ih =>
      obtain ⟨marked, rfl, rfl⟩ := hbody
      obtain ⟨more, rfl, rfl⟩ := ih
      exact ⟨marked :: more, rfl, rfl⟩
  obtain ⟨marked, rfl, rfl⟩ := hcases
  have hexpand (strategy : Strategy) : strategy.calls [.switch subject marked] =
      [.switch subject (marked.map strategy.calls)] := by
    simp only [Strategy.calls, Code.listExpand, Code.expand, Code.casesExpand_eq_map,
      List.append_nil]
    rfl
  exact ⟨[.switch subject marked], (hexpand v.first).symm, (hexpand v.second).symm⟩

/-- Lines are the same on both sides. -/
theorem Codes.lines {α : Type} (text : α → String) (items : List α) :
    v.Codes (items.map fun item => .line (text item))
      (items.map fun item => .line (text item)) := by
  induction items with
  | nil => exact .nil
  | cons item rest ih => exact (Codes.line (text item)).append ih

end Codes

/-! ## States -/

structure Trackers (tracker other : Tracker) : Prop where
  registry : other.groups.number = tracker.groups.number
  groupOf : ∀ label,
    other.groups.value.groupOf? (v.rename label) = tracker.groups.value.groupOf? label
  choice : other.strategy.number = tracker.strategy.number
  first : tracker.strategy.value = v.first
  second : other.strategy.value = v.second
  process : other.process = v.rename tracker.process
  openGroup : other.openGroup = tracker.openGroup
  label : other.label = tracker.label.map fun (uid, name) => (v.rename uid, name)

structure Builders (builder other : Builder SectionCall) : Prop where
  current : v.Codes builder.current other.current
  enclosing : List.Forall₂ v.Codes builder.enclosing other.enclosing
  labels : other.labels = builder.labels
  targets : other.targets = builder.targets

structure Emissions (emission other : Emission) : Prop where
  tracker : v.Trackers emission.tracker other.tracker
  builder : v.Builders emission.builder other.builder

structure Lowerings (state other : Lowering) : Prop where
  emission : v.Emissions state.emission other.emission
  nextTemporary : other.nextTemporary = state.nextTemporary
  imports : other.imports = state.imports

section States

variable {v} {tracker other : Tracker} {builder otherBuilder : Builder SectionCall}

theorem Trackers.isOpen (h : v.Trackers tracker other) : other.isOpen = tracker.isOpen := by
  rw [Tracker.isOpen, h.openGroup, Tracker.isOpen]

theorem Trackers.labelName (h : v.Trackers tracker other) :
    other.labelName = tracker.labelName := by
  rw [Tracker.labelName, h.label, Option.map_map, Tracker.labelName]
  rfl

theorem Trackers.labelUid (h : v.Trackers tracker other) :
    other.labelUid = tracker.labelUid.map v.rename := by
  rw [Tracker.labelUid, h.label, Option.map_map, Tracker.labelUid, Option.map_map]
  rfl

theorem Trackers.continues (h : v.Trackers tracker other) (label : Uid) :
    other.continues (v.rename label) = tracker.continues label := by
  rw [Tracker.continues, h.isOpen, h.openGroup, h.groupOf, Tracker.continues]

theorem Trackers.idle (h : v.Trackers tracker other) :
    v.Trackers tracker.idle other.idle where
  registry := h.registry
  groupOf := h.groupOf
  choice := h.choice
  first := h.first
  second := h.second
  process := h.process
  openGroup := rfl
  label := rfl

theorem Trackers.entered (h : v.Trackers tracker other) (label : Uid) (name : String) :
    v.Trackers (tracker.entered label name) (other.entered (v.rename label) name) where
  registry := h.registry
  groupOf := h.groupOf
  choice := h.choice
  first := h.first
  second := h.second
  process := h.process
  openGroup := h.groupOf label
  label := rfl

/-- Two trackers that disagree do so on both sides. -/
theorem Trackers.checkCompatible (hv : Function.Injective v.rename)
    (h : v.Trackers tracker other) {second otherSecond : Tracker}
    (hsecond : v.Trackers second otherSecond) :
    other.checkCompatible otherSecond = v.rename.result id (tracker.checkCompatible second) := by
  have huid : other.labelUid = otherSecond.labelUid ↔ tracker.labelUid = second.labelUid := by
    rw [h.labelUid, hsecond.labelUid, (Option.map_injective hv).eq_iff]
  have hprocess : other.process = otherSecond.process ↔ tracker.process = second.process := by
    rw [h.process, hsecond.process, hv.eq_iff]
  simp only [Tracker.checkCompatible, h.registry, hsecond.registry, h.choice, hsecond.choice,
    ne_eq, huid, hprocess, h.openGroup, hsecond.openGroup, h.labelName, hsecond.labelName]
  rw [h.process, hsecond.process, h.labelUid]
  repeat' split
  all_goals rfl

theorem Builders.add (h : v.Builders builder otherBuilder) {code otherCode : SectionCode}
    (hcode : v.Codes [code] [otherCode]) :
    v.Builders (builder.add code) (otherBuilder.add otherCode) where
  current := h.current.append hcode
  enclosing := h.enclosing
  labels := h.labels
  targets := h.targets

theorem Builders.openBlock (h : v.Builders builder otherBuilder) :
    v.Builders builder.openBlock otherBuilder.openBlock where
  current := .nil
  enclosing := .cons h.current h.enclosing
  labels := h.labels
  targets := h.targets

theorem Builders.goTo (h : v.Builders builder otherBuilder) (name : String) :
    v.Builders (builder.goTo name) (otherBuilder.goTo name) := by
  have hadded := h.add (.goto name)
  refine ⟨hadded.current, hadded.enclosing, hadded.labels, ?_⟩
  exact congrArg (name :: ·) h.targets

end States

/-! ## Steps -/

/-- Both go wrong with one problem, or come to states and values that belong together. -/
inductive Results {σ α α' : Type} (states : σ → σ → Prop) (values : α → α' → Prop) :
    EStateM.Result Diagnostic σ α → EStateM.Result Diagnostic σ α' → Prop where
  | ok {value value' state state'} (hvalue : values value value') (hstate : states state state') :
    Results states values (.ok value state) (.ok value' state')
  | error (problem : Diagnostic) (state state' : σ) :
    Results states values (.error problem state) (.error (problem.rename v.rename) state')

/-- From states that belong together both come to results that do. -/
def Steps {σ α α' : Type} (states : σ → σ → Prop) (values : α → α' → Prop)
    (operation : EStateM Diagnostic σ α) (other : EStateM Diagnostic σ α') : Prop :=
  ∀ state state', states state state' → v.Results states values (operation state) (other state')

section Steps

variable {v} {σ α α' β β' : Type} {states : σ → σ → Prop}

theorem Steps.bind {values : α → α' → Prop} {last : β → β' → Prop}
    {first : EStateM Diagnostic σ α} {first' : EStateM Diagnostic σ α'}
    {next : α → EStateM Diagnostic σ β} {next' : α' → EStateM Diagnostic σ β'}
    (hfirst : v.Steps states values first first')
    (hnext : ∀ value value', values value value' →
      v.Steps states last (next value) (next' value')) :
    v.Steps states last (first >>= next) (first' >>= next') := by
  intro state state' hstate
  have hresult := hfirst state state' hstate
  change v.Results states last (EStateM.bind first next state) (EStateM.bind first' next' state')
  unfold EStateM.bind
  generalize first state = result at hresult ⊢
  generalize first' state' = result' at hresult ⊢
  cases hresult with
  | ok hvalue hstate => exact hnext _ _ hvalue _ _ hstate
  | error problem state state' => exact .error problem state state'

/-- After steps that give the same value. -/
theorem Steps.next {last : β → β' → Prop} {first first' : EStateM Diagnostic σ α}
    {next : α → EStateM Diagnostic σ β} {next' : α → EStateM Diagnostic σ β'}
    (hfirst : v.Steps states Eq first first')
    (hnext : ∀ value, v.Steps states last (next value) (next' value)) :
    v.Steps states last (first >>= next) (first' >>= next') := by
  refine hfirst.bind ?_
  rintro value _ rfl
  exact hnext value

theorem Steps.pure {values : α → α' → Prop} {value : α} {value' : α'} (h : values value value') :
    v.Steps states values (pure value) (pure value') :=
  fun _ _ hstate => .ok h hstate

theorem Steps.get : v.Steps states states get get := fun _ _ hstate => .ok hstate hstate

theorem Steps.modify {change change' : σ → σ}
    (h : ∀ state state', states state state' → states (change state) (change' state')) :
    v.Steps states Eq (modify change) (modify change') :=
  fun _ _ hstate => .ok rfl (h _ _ hstate)

theorem Steps.throw {values : α → α' → Prop} (problem : Diagnostic) :
    v.Steps states values (throw problem) (throw (problem.rename v.rename)) :=
  fun state state' _ => .error problem state state'

theorem Steps.liftExcept {result result' : Except Diagnostic α}
    (h : result' = v.rename.result id result) :
    v.Steps states Eq (Emit.liftExcept result) (Emit.liftExcept result') := by
  subst h
  cases result with
  | ok value => exact Steps.pure rfl
  | error problem => exact Steps.throw problem

end Steps

/-! ## Sections -/

section Sections

variable {v}

theorem Emissions.close {emission other : Emission} (h : v.Emissions emission other) :
    v.Emissions emission.close other.close := by
  rw [Emission.close_eq, Emission.close_eq]
  refine ⟨h.tracker.idle, ?_, h.builder.enclosing, h.builder.labels, h.builder.targets⟩
  refine h.builder.current.append ?_
  have hlabel := h.tracker.label
  simp only [Tracker.closing, h.tracker.openGroup, h.tracker.first, h.tracker.second, hlabel]
  cases emission.tracker.openGroup with
  | none => exact .nil
  | some group =>
    cases emission.tracker.label with
    | none => exact .nil
    | some label => exact .call .release group

theorem Emissions.enter {emission other : Emission} (h : v.Emissions emission other)
    (hidle : emission.tracker.openGroup = none) (label : Uid) (name : String) :
    v.Emissions (emission.enter label name) (other.enter (v.rename label) name) := by
  have hotherIdle : other.tracker.openGroup = none := by rw [h.tracker.openGroup, hidle]
  rw [Emission.enter_eq _ _ _ hidle, Emission.enter_eq _ _ _ hotherIdle]
  refine ⟨h.tracker.entered label name, ?_, h.builder.enclosing, h.builder.labels,
    h.builder.targets⟩
  refine h.builder.current.append ?_
  simp only [Tracker.opening, h.tracker.groupOf, h.tracker.first, h.tracker.second]
  cases emission.tracker.groups.value.groupOf? label with
  | none => exact .nil
  | some group => exact .call .acquire group

theorem steps_close : v.Steps v.Emissions Eq Emit.close Emit.close :=
  Steps.modify fun _ _ h => h.close

theorem steps_start (label : Uid) (name : String) :
    v.Steps v.Emissions Eq (Emit.start label name) (Emit.start (v.rename label) name) := by
  intro emission other h
  rw [Emit.start_eq, Emit.start_eq, h.tracker.continues, h.tracker.isOpen, h.builder.labels]
  split
  · exact .ok rfl h
  · -- A section that is open is closed first, so the label is entered from an idle state.
    have hclosed : v.Emissions
        (if emission.tracker.isOpen then emission.close else emission)
        (if emission.tracker.isOpen then other.close else other) ∧
        (if emission.tracker.isOpen then emission.close else emission).tracker.openGroup =
          none := by
      cases hopen : emission.tracker.isOpen with
      | false => exact ⟨h, by simpa [Tracker.isOpen] using hopen⟩
      | true => exact ⟨h.close, by simp [Emission.close_eq, Tracker.idle]⟩
    simp only
    split
    · exact .ok rfl (hclosed.1.enter hclosed.2 label name)
    · exact .error _ _ _

theorem steps_endLoop (entry : Option (Uid × String)) :
    v.Steps v.Emissions Eq (Emit.endLoop entry)
      (Emit.endLoop (entry.map fun (uid, name) => (v.rename uid, name))) := by
  cases entry with
  | none => exact steps_close
  | some entry => exact steps_start entry.1 entry.2

theorem steps_abort : v.Steps v.Emissions Eq Emit.abort Emit.abort := by
  intro emission other h
  have hlabel := h.tracker.label
  simp only [Emit.abort, bind, EStateM.bind, get, getThe, MonadStateOf.get, EStateM.get]
  cases hemission : emission.tracker.label with
  | none =>
    rw [hemission] at hlabel
    rw [hlabel]
    exact .error _ _ _
  | some label =>
    rw [hemission] at hlabel
    rw [hlabel]
    refine .ok rfl ⟨h.tracker.idle, ?_⟩
    simp only [h.tracker.openGroup]
    cases emission.tracker.openGroup with
    | none => exact h.builder.goTo label.2
    | some group =>
      have hcall : v.Codes [.leaf ⟨emission.tracker.strategy.value, .abort, group⟩]
          [.leaf ⟨other.tracker.strategy.value, .abort, group⟩] := by
        rw [h.tracker.first, h.tracker.second]
        exact .call .abort group
      exact (h.builder.add hcall).goTo label.2

end Sections

/-! ## Lowering -/

section Lower

variable {v} {α α' : Type}

theorem Steps.emit {values : α → α' → Prop} {operation : Emit α} {other : Emit α'}
    (h : v.Steps v.Emissions values operation other) :
    v.Steps v.Lowerings values (Lower.emit operation) (Lower.emit other) := by
  intro state state' hstate
  have hresult := h _ _ hstate.emission
  unfold Lower.emit
  generalize operation state.emission = result at hresult ⊢
  generalize other state'.emission = result' at hresult ⊢
  cases hresult with
  | ok hvalue hemission => exact .ok hvalue ⟨hemission, hstate.nextTemporary, hstate.imports⟩
  | error problem _ _ => exact .error problem _ _

theorem steps_add {code other : SectionCode} (h : v.Codes [code] [other]) :
    v.Steps v.Lowerings Eq (Lower.add code) (Lower.add other) :=
  (Steps.modify fun _ _ hemission => ⟨hemission.tracker, hemission.builder.add h⟩).emit

theorem steps_addLine (text : String) :
    v.Steps v.Lowerings Eq (Lower.addLine text) (Lower.addLine text) :=
  steps_add (.line text)

theorem steps_tracker : v.Steps v.Lowerings v.Trackers Lower.tracker Lower.tracker :=
  fun _ _ hstate => .ok hstate.emission.tracker hstate

theorem steps_setTracker {tracker other : Tracker} (h : v.Trackers tracker other) :
    v.Steps v.Lowerings Eq (Lower.setTracker tracker) (Lower.setTracker other) :=
  (Steps.modify fun _ _ hemission => ⟨h, hemission.builder⟩).emit

theorem steps_setImports (change : Imports → Imports) :
    v.Steps v.Lowerings Eq
      (modify fun state : Lowering => { state with imports := change state.imports })
      (modify fun state : Lowering => { state with imports := change state.imports }) :=
  Steps.modify fun _ _ h => ⟨h.emission, h.nextTemporary, congrArg change h.imports⟩

theorem steps_openBlock : v.Steps v.Lowerings Eq Lower.openBlock Lower.openBlock :=
  (Steps.modify fun _ _ h => ⟨h.tracker, h.builder.openBlock⟩).emit

theorem steps_closeBlock : v.Steps v.Lowerings v.Codes Lower.closeBlock Lower.closeBlock := by
  refine Steps.emit fun emission other h => ?_
  obtain ⟨tracker, ⟨current, enclosing, labels, targets⟩⟩ := emission
  obtain ⟨otherTracker, ⟨otherCurrent, otherEnclosing, otherLabels, otherTargets⟩⟩ := other
  obtain ⟨htracker, hcurrent, henclosing, hlabels, htargets⟩ := h
  cases henclosing with
  | nil => exact .error _ _ _
  | cons houter henclosing =>
    exact .ok hcurrent ⟨htracker, houter, henclosing, hlabels, htargets⟩

theorem steps_declareLabel (name : String) :
    v.Steps v.Lowerings Eq (Lower.declareLabel name) (Lower.declareLabel name) := by
  refine Steps.emit fun emission other h => ?_
  simp only [Builder.declareLabel, bind, EStateM.bind, get, getThe, MonadStateOf.get, EStateM.get,
    h.builder.labels]
  by_cases hname : name ∈ emission.builder.labels
  · simp only [if_pos hname]
    exact .error _ _ _
  · have hadded := h.builder.add (.label name)
    simp only [if_neg hname]
    exact .ok rfl ⟨h.tracker, hadded.current, hadded.enclosing, rfl, hadded.targets⟩

theorem steps_goTo (name : String) :
    v.Steps v.Lowerings Eq (Lower.goTo name) (Lower.goTo name) :=
  (Steps.modify fun _ _ h => ⟨h.tracker, h.builder.goTo name⟩).emit

variable (v) in
/-- The cases of a choice with the trackers that are kept of them. -/
def Cases (result other : List (List SectionCode) × Option Tracker) : Prop :=
  List.Forall₂ v.Codes result.1 other.1 ∧ Option.Rel v.Trackers result.2 other.2

variable (v) in
/-- What a copy of the tracker gives together with the copy. -/
def Copies (values : α → α' → Prop) (result : α × Tracker) (other : α' × Tracker) : Prop :=
  values result.1 other.1 ∧ v.Trackers result.2 other.2

theorem Steps.onCopy {values : α → α' → Prop} {operation : Lower α} {other : Lower α'}
    (h : v.Steps v.Lowerings values operation other) :
    v.Steps v.Lowerings (v.Copies values) (Lower.onCopy operation) (Lower.onCopy other) := by
  intro state state' hstate
  have hresult := h _ _ hstate
  unfold Lower.onCopy
  generalize operation state = result at hresult ⊢
  generalize other state' = result' at hresult ⊢
  cases hresult with
  | ok hvalue hafter =>
    exact .ok ⟨hvalue, hafter.emission.tracker⟩
      ⟨⟨hstate.emission.tracker, hafter.emission.builder⟩, hafter.nextTemporary, hafter.imports⟩
  | error problem _ _ => exact .error problem _ _

theorem Steps.branch {closeSection : Bool} {body other : Lower Unit}
    (h : v.Steps v.Lowerings Eq body other) :
    v.Steps v.Lowerings (v.Copies v.Codes) (Lower.branch closeSection body)
      (Lower.branch closeSection other) := by
  apply Steps.onCopy
  refine steps_openBlock.next fun _ => h.next fun _ => ?_
  cases closeSection with
  | false => exact steps_closeBlock
  | true => exact steps_close.emit.next fun _ => steps_closeBlock

end Lower

end Variation

end PlusCalGo.Go
