import Mathlib
import PlusCalGo.Proofs.Go.Remark

/-!
# Remarks change nothing

Both lowerings of a body fail on the same problem, or the second one's code without its remarks is
the code of the first one, and all else they keep is the same.
-/

namespace PlusCalGo.Go

theorem Code.casesExpand_eq_map {κ μ : Type} (expand : κ → List (Code μ))
    (cases : List (List (Code κ))) :
    casesExpand expand cases = cases.map (listExpand expand) := by
  induction cases with
  | nil => rfl
  | cons body rest ih => rw [casesExpand, ih, List.map_cons]

theorem Code.listExpand_append {κ ι : Type} (write : κ → List (Code ι))
    (first second : List (Code κ)) :
    listExpand write (first ++ second) = listExpand write first ++ listExpand write second := by
  induction first with
  | nil => rfl
  | cons code rest ih =>
    rw [List.cons_append, Code.listExpand, ih, Code.listExpand, List.append_assoc]

namespace NotedCode

@[simp] theorem erase_nil : erase [] = [] := rfl

@[simp] theorem erase_append (first second : NotedCode) :
    erase (first ++ second) = first.erase ++ second.erase :=
  Code.listExpand_append _ first second

theorem erase_flatMap {α : Type} (entries : List α) (lines : α → NotedCode) :
    erase (entries.flatMap lines) = entries.flatMap fun entry => (lines entry).erase := by
  induction entries with
  | nil => rfl
  | cons entry rest ih => rw [List.flatMap_cons, erase_append, ih, List.flatMap_cons]

@[simp] theorem erase_line (text : String) (rest : NotedCode) :
    erase (.line text :: rest) = .line text :: rest.erase := rfl

@[simp] theorem erase_label (name : String) (rest : NotedCode) :
    erase (.label name :: rest) = .label name :: rest.erase := rfl

@[simp] theorem erase_goto (name : String) (rest : NotedCode) :
    erase (.goto name :: rest) = .goto name :: rest.erase := rfl

@[simp] theorem erase_branch (condition : String) (yes no rest : NotedCode) :
    erase (.branch condition yes no :: rest) =
      .branch condition yes.erase no.erase :: rest.erase := rfl

@[simp] theorem erase_loop (body rest : NotedCode) :
    erase (.loop body :: rest) = .loop body.erase :: rest.erase := rfl

@[simp] theorem erase_block (body rest : NotedCode) :
    erase (.block body :: rest) = .block body.erase :: rest.erase := rfl

@[simp] theorem erase_call (call : SectionCall) (rest : NotedCode) :
    erase (.leaf (.call call) :: rest) = .leaf call :: rest.erase := rfl

@[simp] theorem erase_remark (remark : Remark) (rest : NotedCode) :
    erase (.leaf (.remark remark) :: rest) = rest.erase := rfl

@[simp] theorem erase_switch (subject : String) (cases : List NotedCode) (rest : NotedCode) :
    erase (.switch subject cases :: rest) = .switch subject (cases.map erase) :: rest.erase := by
  unfold erase
  rw [Code.listExpand, Code.expand, Code.casesExpand_eq_map]
  rfl

@[simp] theorem erase_ofCalls (calls : List SectionCall) :
    (ofCalls calls).erase = calls.map .leaf := by
  induction calls with
  | nil => rfl
  | cons call rest ih =>
    simp only [ofCalls, List.map_cons, erase_call] at ih ⊢
    rw [ih]

end NotedCode

/-! ## Agreement -/

/-- The state of the second lowering. -/
def Lowering.progress (state : Lowering) : Progress :=
  ⟨state.emission.tracker, state.emission.builder.labels, state.emission.builder.targets,
    state.nextTemporary, state.imports⟩

/-- The state after the second lowering has made some code in the current block. -/
def Lowering.write (state : Lowering) (code : NotedCode) (progress : Progress) : Lowering :=
  ⟨⟨progress.tracker, ⟨state.emission.builder.current ++ code.erase,
    state.emission.builder.enclosing, progress.labels, progress.targets⟩⟩,
    progress.nextTemporary, progress.imports⟩

@[simp] theorem Lowering.write_progress (state : Lowering) (code : NotedCode)
    (progress : Progress) : (state.write code progress).progress = progress := rfl

@[simp] theorem Lowering.write_write (state : Lowering) (first second : NotedCode)
    (between after : Progress) :
    (state.write first between).write second after = state.write (first ++ second) after := by
  simp [Lowering.write]

theorem Lowering.write_nil (state : Lowering) : state.write [] state.progress = state := by
  simp [Lowering.write, Lowering.progress]

/-- Both go wrong with one problem, or both go well and the first one gives `value` of what the
second one gives, and writes `code` of it. -/
def Agrees {α β : Type} (noting : Noting α) (lower : Lower β) (code : α → NotedCode)
    (value : α → β) : Prop :=
  ∀ state : Lowering,
    match noting state.progress with
    | .ok (result, progress) =>
      lower state = .ok (value result) (state.write (code result) progress)
    | .error problem => ∃ after, lower state = .error problem after

/-- The second lowering gives the code that the first one writes. -/
def Writes (noting : Noting NotedCode) (lower : Lower Unit) : Prop :=
  Agrees noting lower id fun _ => ()

/-- The first lowering gives what the second one does and writes nothing. -/
def Reads {α β : Type} (noting : Noting α) (lower : Lower β) (value : α → β) : Prop :=
  Agrees noting lower (fun _ => []) value

namespace Noting

theorem append_eq (first second : Noting NotedCode) :
    first ++ second = first >>= fun code => second >>= fun rest => pure (code ++ rest) := rfl

theorem bind_apply {α β : Type} (first : Noting α) (next : α → Noting β) (progress : Progress) :
    (first >>= next) progress =
      match first progress with
      | .ok (value, progress) => next value progress
      | .error problem => .error problem := by
  change Except.bind (first progress) _ = _
  cases first progress <;> rfl

theorem pure_apply {α : Type} (value : α) (progress : Progress) :
    (pure value : Noting α) progress = .ok (value, progress) := rfl

end Noting

namespace Lower

theorem bind_apply {α β : Type} (first : Lower α) (next : α → Lower β) (state : Lowering) :
    (first >>= next) state =
      match first state with
      | .ok value state => next value state
      | .error problem state => .error problem state := by
  change EStateM.bind first next state = _
  unfold EStateM.bind
  cases first state <;> rfl

theorem pure_apply {α : Type} (value : α) (state : Lowering) :
    (pure value : Lower α) state = .ok value state := rfl

end Lower

section Combination

variable {α β γ δ : Type}

/-- After a step that writes nothing. -/
theorem Reads.bind {noting : Noting α} {lower : Lower β} {value : α → β} {next : α → Noting γ}
    {nextLower : β → Lower δ} {code : γ → NotedCode} {last : γ → δ}
    (hfirst : Reads noting lower value)
    (hnext : ∀ result, Agrees (next result) (nextLower (value result)) code last) :
    Agrees (noting >>= next) (lower >>= nextLower) code last := by
  intro state
  have hfirst := hfirst state
  rw [Noting.bind_apply, Lower.bind_apply]
  cases hresult : noting state.progress with
  | error problem =>
    rw [hresult] at hfirst
    obtain ⟨after, hafter⟩ := hfirst
    exact ⟨after, by rw [hafter]⟩
  | ok result =>
    obtain ⟨result, progress⟩ := result
    rw [hresult] at hfirst
    have hnext := hnext result (state.write [] progress)
    simp only [Lowering.write_progress, Lowering.write_write, List.nil_append] at hnext
    simp only [hfirst]
    exact hnext

/-- One piece of code after another. -/
theorem Writes.append {first second : Noting NotedCode} {firstLower secondLower : Lower Unit}
    (hfirst : Writes first firstLower) (hsecond : Writes second secondLower) :
    Writes (first ++ second) (firstLower >>= fun _ => secondLower) := by
  intro state
  have hfirst := hfirst state
  rw [Noting.append_eq, Noting.bind_apply, Lower.bind_apply]
  cases hresult : first state.progress with
  | error problem =>
    rw [hresult] at hfirst
    obtain ⟨after, hafter⟩ := hfirst
    exact ⟨after, by rw [hafter]⟩
  | ok result =>
    obtain ⟨code, progress⟩ := result
    rw [hresult] at hfirst
    simp only [hfirst, id]
    have hsecond := hsecond (state.write code progress)
    rw [Lowering.write_progress] at hsecond
    rw [Noting.bind_apply]
    cases hrest : second progress with
    | error problem =>
      rw [hrest] at hsecond
      exact hsecond
    | ok result =>
      obtain ⟨rest, after⟩ := result
      rw [hrest] at hsecond
      simpa [Noting.pure_apply] using hsecond

theorem reads_pure (result : α) (value : α → β) :
    Reads (pure result) (pure (value result)) value := by
  intro state
  rw [Noting.pure_apply, Lower.pure_apply]
  simp only [Lowering.write_nil]

theorem writes_pure : Writes (pure []) (pure ()) := by
  intro state
  rw [Noting.pure_apply, Lower.pure_apply]
  simp only [id, Lowering.write_nil]

/-- What the first lowering makes, the second one does with remarks. -/
theorem Writes.ok {noting : Noting NotedCode} {lower : Lower Unit} {state after : Lowering}
    (h : Writes noting lower) (hlower : lower state = .ok () after) :
    ∃ code progress, noting state.progress = .ok (code, progress) ∧
      after = state.write code progress := by
  have h := h state
  cases hresult : noting state.progress with
  | error problem =>
    rw [hresult] at h
    obtain ⟨other, hother⟩ := h
    simp [hlower] at hother
  | ok result =>
    obtain ⟨code, progress⟩ := result
    rw [hresult] at h
    have h : lower state = .ok () (state.write code progress) := h
    rw [hlower] at h
    injection h with _ hafter
    exact ⟨code, progress, rfl, hafter⟩

theorem Writes.of_ok {noting : Noting NotedCode} {lower : Lower Unit} {state : Lowering}
    {code : NotedCode} {progress : Progress} (h : Writes noting lower)
    (hnoting : noting state.progress = .ok (code, progress)) :
    lower state = .ok () (state.write code progress) := by
  have h := h state
  rw [hnoting] at h
  exact h

theorem Writes.of_error {noting : Noting NotedCode} {lower : Lower Unit} {state : Lowering}
    {problem : Diagnostic} (h : Writes noting lower)
    (hnoting : noting state.progress = .error problem) :
    ∃ left, lower state = .error problem left := by
  have h := h state
  rw [hnoting] at h
  exact h

/-- Code without leaves to write out, after remarks. -/
theorem writes_add {code : NotedCode} {added : SectionCode} (h : code.erase = [added]) :
    Writes (pure code) (Lower.add added) := by
  intro state
  simp [Noting.pure_apply, Lower.add, Lower.emit, Lowering.write, Lowering.progress, h, modify,
    modifyGet, MonadStateOf.modifyGet, EStateM.modifyGet, Builder.add]

end Combination

/-! ## Single steps -/

open Noting

theorem reads_attempt {α : Type} (result : Except Diagnostic α) :
    Reads (attempt result) (Emit.liftExcept result) id := by
  intro state
  cases result with
  | error problem => exact ⟨state, rfl⟩
  | ok value =>
    change EStateM.Result.ok value state = _
    simp only [Lowering.write_nil, id]

theorem Agrees.after_remark {γ δ : Type} {label? : Option Label} {subject : Subject}
    {next : NotedCode → Noting γ} {lower : Lower δ} {code : γ → NotedCode} {value : γ → δ}
    (h : ∀ note : NotedCode, note.erase = [] → Agrees (next note) lower code value) :
    Agrees (remark label? subject >>= next) lower code value := by
  intro state
  rw [Noting.bind_apply]
  exact h [.leaf (.remark ⟨state.progress.tracker.openGroup, label?, subject⟩)] rfl state

theorem Writes.after_remark {label? : Option Label} {subject : Subject} {noting : Noting NotedCode}
    {lower : Lower Unit} (h : Writes noting lower) :
    Writes (remark label? subject ++ noting) lower := by
  apply Agrees.after_remark
  intro note hnote state
  have h := h state
  rw [Noting.bind_apply]
  cases hresult : noting state.progress with
  | error problem =>
    rw [hresult] at h
    exact h
  | ok result =>
    rw [hresult] at h
    simpa [Noting.pure_apply, Lowering.write, hnote] using h

theorem writes_emitLine (text : String) : Writes (emitLine text) (Lower.addLine text) :=
  writes_add rfl

theorem writes_declareLabel (name : String) :
    Writes (declareLabel name) (Lower.declareLabel name) := by
  intro state
  by_cases h : name ∈ state.emission.builder.labels
  · simp [declareLabel, Lowering.progress, h, Lower.declareLabel, Lower.emit, Builder.declareLabel,
      Emit.liftExcept, bind, EStateM.bind, get, getThe, MonadStateOf.get, EStateM.get, throw,
      throwThe, MonadExceptOf.throw, EStateM.throw]
  · simp [declareLabel, Lowering.progress, h, Lower.declareLabel, Lower.emit, Builder.declareLabel,
      Builder.add, Emit.liftExcept, bind, EStateM.bind, get, getThe, MonadStateOf.get, EStateM.get,
      pure, EStateM.pure, modify, modifyGet, MonadStateOf.modifyGet, EStateM.modifyGet,
      Lowering.write]

theorem writes_goTo (name : String) : Writes (goTo name) (Lower.goTo name) := by
  intro state
  simp [goTo, Lowering.progress, Lower.goTo, Lower.emit, Builder.goTo, Builder.add, modify,
    modifyGet, MonadStateOf.modifyGet, EStateM.modifyGet, Lowering.write]

/-- What closing does to a tracker and its code. -/
theorem Emission.close_eq (emission : Emission) :
    emission.close = ⟨emission.tracker.idle, { emission.builder with
      current := emission.builder.current ++ emission.tracker.closing.map .leaf }⟩ := by
  obtain ⟨tracker, builder⟩ := emission
  cases hgroup : tracker.openGroup <;> cases hlabel : tracker.label <;>
    simp [Emission.close, Emission.addCall, Builder.add, Tracker.closing, Tracker.idle, hgroup,
      hlabel]

theorem writes_close : Writes close (Lower.emit Emit.close) := by
  intro state
  simp [close, Lower.emit, Emit.close, Emission.close_eq, modify, modifyGet,
    MonadStateOf.modifyGet, EStateM.modifyGet, Lowering.write, Lowering.progress]

/-- What entering a label does when no group is open. -/
theorem Emission.enter_eq (emission : Emission) (label : Uid) (name : String)
    (hidle : emission.tracker.openGroup = none) :
    emission.enter label name = ⟨emission.tracker.entered label name, { emission.builder with
      current := emission.builder.current ++ (emission.tracker.opening label).map .leaf }⟩ := by
  obtain ⟨⟨groups, strategy, process, openGroup, current⟩, builder⟩ := emission
  cases hidle
  cases hgroup : groups.value.groupOf? label <;>
    simp [Emission.enter, Emission.addCall, Builder.add, Tracker.opening, Tracker.entered, hgroup]

theorem Emit.start_eq (label : Uid) (name : String) (emission : Emission) :
    Emit.start label name emission =
      if emission.tracker.continues label then .ok () emission
      else
        let closed := if emission.tracker.isOpen then emission.close else emission
        if name ∈ emission.builder.labels then .ok () (closed.enter label name)
        else .error (.of (.sectionBeforeLabel name)) closed := by
  have hlabels : emission.close.builder.labels = emission.builder.labels := by
    rw [Emission.close_eq]
  by_cases hopen : emission.tracker.isOpen = true <;>
    by_cases hsame : emission.tracker.openGroup = emission.tracker.groups.value.groupOf? label <;>
    by_cases hname : name ∈ emission.builder.labels <;>
    simp [Emit.start, Tracker.continues, hopen, hsame, hname, hlabels, Emit.close, modify,
      modifyGet, MonadStateOf.modifyGet, EStateM.modifyGet, bind, EStateM.bind, get, getThe,
      MonadStateOf.get, EStateM.get, Builder.ensureLabelDeclared, Emit.liftExcept, pure,
      EStateM.pure, throw, throwThe, MonadExceptOf.throw, EStateM.throw]

theorem writes_start (label : Uid) (name : String) :
    Writes (start label name) (Lower.emit (Emit.start label name)) := by
  intro state
  simp only [start, Lower.emit, Emit.start_eq, Lowering.progress]
  by_cases hcontinues : state.emission.tracker.continues label = true
  · simp only [hcontinues, if_true]
    exact congrArg (EStateM.Result.ok ()) (Lowering.write_nil state).symm
  · simp only [hcontinues]
    by_cases hname : name ∈ state.emission.builder.labels
    · cases hopen : state.emission.tracker.isOpen with
      | false =>
        have hnone : state.emission.tracker.openGroup = none := by
          simpa [Tracker.isOpen] using hopen
        have hclosing : state.emission.tracker.closing = [] := by simp [Tracker.closing, hnone]
        simp [hname, Emission.enter_eq _ label name hnone, hclosing, Lowering.write]
      | true =>
        have hopening : state.emission.tracker.idle.opening label =
            state.emission.tracker.opening label := rfl
        have hentered : state.emission.tracker.idle.entered label name =
            state.emission.tracker.entered label name := rfl
        simp [hname, Emission.close_eq, Emission.enter_eq, hopening, hentered, Lowering.write,
          show state.emission.tracker.idle.openGroup = none from rfl]
    · simp [hname]

theorem writes_endLoop (entry : Option (Uid × String)) :
    Writes (endLoop entry) (Lower.emit (Emit.endLoop entry)) := by
  cases entry with
  | none => exact writes_close
  | some entry => exact writes_start entry.1 entry.2

theorem Emit.abort_eq (emission : Emission) :
    Emit.abort emission = match emission.tracker.label with
      | none => .error (.of .abortOutsideLabel) emission
      | some (_, name) => .ok () ⟨emission.tracker.idle, { emission.builder with
          current := emission.builder.current ++ emission.tracker.aborting.map .leaf ++ [.goto name]
          targets := name :: emission.builder.targets }⟩ := by
  simp only [Emit.abort, bind, EStateM.bind, get, getThe, MonadStateOf.get, EStateM.get]
  cases hlabel : emission.tracker.label with
  | none => simp [throw, throwThe, MonadExceptOf.throw, EStateM.throw]
  | some label =>
    cases hgroup : emission.tracker.openGroup <;>
      simp [set, MonadStateOf.set, EStateM.set, hgroup, Tracker.aborting, Tracker.idle,
        Emission.addCall, Builder.add, Builder.goTo]

theorem writes_abort (label? : Option Label) : Writes (abort label?) (Lower.emit Emit.abort) := by
  intro state
  simp only [abort, Lower.emit, Emit.abort_eq, Lowering.progress]
  cases state.emission.tracker.label with
  | none => simp
  | some label => simp [Lowering.write]

theorem reads_tracker : Reads tracker Lower.tracker id := by
  intro state
  change EStateM.Result.ok state.emission.tracker state = _
  simp only [Lowering.write_nil, id]
  rfl

theorem reads_setTracker (tracker : Tracker) :
    Reads (setTracker tracker) (Lower.setTracker tracker) id := by
  intro state
  simp [setTracker, Lower.setTracker, Lower.emit, modify, modifyGet, MonadStateOf.modifyGet,
    EStateM.modifyGet, Lowering.write, Lowering.progress]

theorem reads_setImports (change : Imports → Imports) :
    Reads (setImports change)
      (modify fun state : Lowering => { state with imports := change state.imports }) id := by
  intro state
  simp [setImports, modify, modifyGet, MonadStateOf.modifyGet, EStateM.modifyGet, Lowering.write,
    Lowering.progress]

/-! ## Blocks -/

/-- Code that is made in a block of its own. -/
theorem reads_block {noting : Noting NotedCode} {lower : Lower Unit} (h : Writes noting lower) :
    Reads noting (Lower.openBlock >>= fun _ => lower >>= fun _ => Lower.closeBlock)
      NotedCode.erase := by
  intro state
  let opened : Lowering :=
    { state with emission := ⟨state.emission.tracker, state.emission.builder.openBlock⟩ }
  have hopen : Lower.openBlock state = .ok () opened := rfl
  have h := h opened
  rw [show opened.progress = state.progress from rfl] at h
  rw [Lower.bind_apply, hopen]
  simp only [Lower.bind_apply]
  cases hresult : noting state.progress with
  | error problem =>
    rw [hresult] at h
    obtain ⟨after, hafter⟩ := h
    exact ⟨after, by rw [hafter]⟩
  | ok result =>
    obtain ⟨code, progress⟩ := result
    rw [hresult] at h
    simp only [h]
    simp [opened, Lowering.write, Lower.closeBlock, Lower.emit, Builder.openBlock,
      Builder.closeBlock, Emit.liftExcept, bind, EStateM.bind, get, getThe, MonadStateOf.get,
      EStateM.get, pure, EStateM.pure, modify, modifyGet, MonadStateOf.modifyGet,
      EStateM.modifyGet]

theorem reads_onCopy {α β : Type} {noting : Noting α} {lower : Lower β} {value : α → β}
    (h : Reads noting lower value) :
    Reads (do
      let before ← tracker
      let result ← noting
      let after ← tracker
      setTracker before
      pure (result, after)) (Lower.onCopy lower)
      (fun (result, tracker) => (value result, tracker)) := by
  intro state
  have h := h state
  simp only [Noting.bind_apply, tracker, Lower.onCopy]
  cases hresult : noting state.progress with
  | error problem =>
    rw [hresult] at h
    obtain ⟨after, hafter⟩ := h
    simp only [hafter]
    exact ⟨_, rfl⟩
  | ok result =>
    obtain ⟨result, progress⟩ := result
    rw [hresult] at h
    simp only [h]
    rfl

theorem reads_branch {closeSection : Bool} {noting : Noting NotedCode} {lower : Lower Unit}
    (h : Writes noting lower) :
    Reads (branch closeSection noting) (Lower.branch closeSection lower)
      (fun (code, tracker) => (code.erase, tracker)) := by
  cases closeSection with
  | false =>
    have hbody : Writes (noting ++ (pure [] : Noting NotedCode)) (lower >>= fun _ => pure ()) :=
      h.append writes_pure
    have hcopy := reads_onCopy (reads_block hbody)
    simp only [bind_assoc, pure_bind] at hcopy
    exact hcopy
  | true =>
    have hcopy := reads_onCopy (reads_block (h.append writes_close))
    simp only [bind_assoc] at hcopy
    exact hcopy

end PlusCalGo.Go
