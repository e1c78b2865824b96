import PlusCalGo.Proofs.Go.RetryTargets

/-!
# Attempts of a step

Runs of the code of a function on a machine that executes its lines. A step is attempted from a
label on, up to an `await` that fails. With the locks in the program itself, the retry gives the
mutex back and does nothing else: the globals come to the label as the lines before the `await` have
left them, so an attempt that fails has no effect on a global if and only if these lines have none.
-/

namespace PlusCalGo

namespace Go

/-- What executes the lines of written code. Calls of a mutex change no global variable. -/
structure Machine where
  Memory : Type
  Value : Type
  global : String → Memory → Value
  line : String → Memory → Memory → Prop
  holds : String → Memory → Prop
  mutexes : ∀ (action : SectionAction) (group : LockGroup) (text name : String)
    (before after : Memory),
    Code.line text ∈ (SectionCall.code ⟨.inProcess, action, group⟩ : List PlainCode) →
      line text before after → global name after = global name before

/-- Control goes on from the point in one way, whatever the memory holds. -/
def Point.Free (point : Point Empty) : Prop :=
  match point.code with
  | .line text :: _ => text = "break"
  | .branch .. :: _ => False
  | _ => True

namespace Machine

variable (machine : Machine) (body : List PlainCode)

/-- One step of a run, with the line that is executed. -/
inductive Step : Point Empty → machine.Memory → List String → Point Empty → machine.Memory → Prop
  | line {text : String} {code : List PlainCode} {frames : List (Frame Empty)}
      {before after : machine.Memory} :
    text ≠ "return" → text ≠ "break" → machine.line text before after →
      Step ⟨.line text :: code, frames⟩ before [text] ⟨code, frames⟩ after
  | yes {condition : String} {yes no code : List PlainCode} {frames : List (Frame Empty)}
      {memory : machine.Memory} :
    machine.holds condition memory →
      Step ⟨.branch condition yes no :: code, frames⟩ memory [] ⟨yes, .rest code :: frames⟩ memory
  | no {condition : String} {yes no code : List PlainCode} {frames : List (Frame Empty)}
      {memory : machine.Memory} :
    ¬machine.holds condition memory →
      Step ⟨.branch condition yes no :: code, frames⟩ memory [] ⟨no, .rest code :: frames⟩ memory
  | free {before after : Point Empty} {memory : machine.Memory} :
    before.Free → Go.Step (fun _ => True) body before none after →
      Step before memory [] after memory

/-- A run, with the lines that are executed in order. -/
inductive Runs : Point Empty → machine.Memory → List String → Point Empty → machine.Memory → Prop
  | refl {point : Point Empty} {memory : machine.Memory} : Runs point memory [] point memory
  | step {first second third : Point Empty} {start between finish : machine.Memory}
      {line lines : List String} :
    machine.Step body first start line second between → Runs second between lines third finish →
      Runs first start (line ++ lines) third finish

/-- Executing lines one after the other. -/
inductive Executes : List String → machine.Memory → machine.Memory → Prop
  | nil {memory : machine.Memory} : Executes [] memory memory
  | cons {text : String} {lines : List String} {before between after : machine.Memory} :
    machine.line text before between → Executes lines between after →
      Executes (text :: lines) before after

/-- The line does not change the global variable. -/
def Keeps (name text : String) : Prop :=
  ∀ before after, machine.line text before after →
    machine.global name after = machine.global name before

variable {machine body} {first second third : Point Empty}
  {start between finish : machine.Memory} {lines more : List String} {name : String}

theorem Runs.append (hfirst : machine.Runs body first start lines second between)
    (hsecond : machine.Runs body second between more third finish) :
    machine.Runs body first start (lines ++ more) third finish := by
  induction hfirst with
  | refl => exact hsecond
  | step hstep _ ih =>
    rw [List.append_assoc]
    exact .step hstep (ih hsecond)

/-- What no executed line changes, a run does not change. -/
theorem Runs.keeps (h : machine.Runs body first start lines second finish)
    (hkeeps : ∀ text ∈ lines, machine.Keeps name text) :
    machine.global name finish = machine.global name start := by
  induction h with
  | refl => rfl
  | step hstep _ ih =>
    rw [ih fun text hmem => hkeeps text (List.mem_append_right _ hmem)]
    cases hstep with
    | line _ _ hline => exact hkeeps _ (List.mem_append_left _ List.mem_cons_self) _ _ hline
    | yes => rfl
    | no => rfl
    | free => rfl

theorem Executes.keeps (h : machine.Executes lines start finish)
    (hkeeps : ∀ text ∈ lines, machine.Keeps name text) :
    machine.global name finish = machine.global name start := by
  induction h with
  | nil => rfl
  | cons hline _ ih =>
    obtain ⟨hfirst, hrest⟩ := List.forall_mem_cons.1 hkeeps
    exact (ih hrest).trans (hfirst _ _ hline)

/-- Lines in front of a jump are executed, and control goes to the label. -/
theorem Executes.runs (h : machine.Executes lines start finish)
    (hplain : ∀ text ∈ lines, PlainLine text)
    {frames : List (Frame Empty)} {code : List PlainCode} {target : Point Empty}
    (hseek : Code.listSeek name [] body = some target) :
    machine.Runs body ⟨lines.map .line ++ .goto name :: code, frames⟩ start lines target
      finish := by
  induction h with
  | nil =>
    have hfree : Point.Free ⟨.goto name :: code, frames⟩ := trivial
    exact .step (.free hfree (.jump trivial hseek)) .refl
  | cons hline _ ih =>
    obtain ⟨⟨hreturn, hbreak⟩, hrest⟩ := List.forall_mem_cons.1 hplain
    exact .step (.line hreturn hbreak hline) (ih hrest)

/-- A run from lines in front of a jump comes by the label, if it comes to some label at all. -/
theorem Runs.executes (hplain : ∀ text ∈ lines, PlainLine text) {frames : List (Frame Empty)}
    {code rest : List PlainCode} {target : Point Empty} {other : String}
    (h : machine.Runs body ⟨lines.map .line ++ .goto name :: code, frames⟩ start more second finish)
    (hsecond : second.code = .label other :: rest)
    (hseek : Code.listSeek name [] body = some target) :
    ∃ arrived after, machine.Executes lines start arrived ∧ more = lines ++ after ∧
      machine.Runs body target arrived after second finish := by
  induction lines generalizing start more with
  | nil =>
    cases h with
    | refl => cases hsecond
    | step hstep hruns =>
      cases hstep with
      | free _ hstep =>
        cases hstep with
        | jump _ htarget =>
          cases hseek.symm.trans htarget
          exact ⟨start, _, .nil, rfl, hruns⟩
  | cons text lines ih =>
    obtain ⟨⟨_, hbreak⟩, hrest⟩ := List.forall_mem_cons.1 hplain
    cases h with
    | refl => cases hsecond
    | step hstep hruns =>
      cases hstep with
      | line _ _ hline =>
        obtain ⟨arrived, after, hexecutes, rfl, hafter⟩ := ih hrest hruns
        exact ⟨arrived, after, .cons hline hexecutes, rfl, hafter⟩
      | free hfree => exact (hbreak hfree).elim

/-- An attempt of the step of a label: a run from the label to an `await` that fails. -/
structure Attempt (machine : Machine) (body : List PlainCode) (name condition : String)
    (givesUp : List String) (point test : Point Empty) (start : machine.Memory)
    (lines : List String) (tested : machine.Memory) : Prop where
  label : Code.listSeek name [] body = some point
  tests : ∃ rest frames,
    test = ⟨.branch condition (givesUp.map .line ++ [.goto name]) [] :: rest, frames⟩
  runs : machine.Runs body point start lines test tested
  fails : machine.holds condition tested

variable {condition : String} {givesUp : List String} {point test : Point Empty}
  {tested : machine.Memory}

/-- An attempt can give up as soon as its lines for that are executed. -/
theorem Attempt.returns
    (h : machine.Attempt body name condition givesUp point test start lines tested)
    (hplain : ∀ text ∈ givesUp, PlainLine text)
    (hexecutes : machine.Executes givesUp tested finish) :
    machine.Runs body point start (lines ++ givesUp) point finish := by
  obtain ⟨rest, frames, rfl⟩ := h.tests
  refine h.runs.append ?_
  exact .step (.yes h.fails) (hexecutes.runs hplain h.label)

/-- A run that goes on from an attempt to the label gives the attempt up first. -/
theorem Attempt.executes
    (h : machine.Attempt body name condition givesUp point test start lines tested)
    (hplain : ∀ text ∈ givesUp, PlainLine text)
    (hruns : machine.Runs body test tested more point finish) :
    ∃ arrived after, machine.Executes givesUp tested arrived ∧ more = givesUp ++ after ∧
      machine.Runs body point arrived after point finish := by
  obtain ⟨rest, frames, rfl⟩ := h.tests
  obtain ⟨_, hlabel⟩ := Code.listSeek_label body h.label
  cases hruns with
  | refl => cases hlabel
  | step hstep hruns =>
    cases hstep with
    | yes => exact hruns.executes hplain hlabel h.label
    | no hholds => exact (hholds h.fails).elim
    | free hfree => exact hfree.elim

end Machine

/-! ## Giving up with a mutex -/

/-- The lines that give up the section of a label, which hold nothing but the call of a mutex. -/
def unlocking (groups : LockGroups) (label : Label) : List String :=
  match groups.groupOf? label.uid with
  | some group => [lockArray ++ "[" ++ group.text ++ "].Unlock()"]
  | none => []

theorem expand_aborting {context : FunctionContext} {label : Label} {name : String}
    (hstrategy : context.strategy = .inProcess) :
    (Code.listExpand SectionCall.code
        ((context.aborting label).map .leaf ++ [.goto name]) : List PlainCode) =
      (unlocking context.groups label).map .line ++ [.goto name] := by
  unfold FunctionContext.aborting unlocking
  cases context.groups.groupOf? label.uid with
  | none => rfl
  | some group =>
    rw [hstrategy]
    rfl

theorem plainLine_unlocking (groups : LockGroups) (label : Label) :
    ∀ text ∈ unlocking groups label, PlainLine text := by
  intro text htext
  unfold unlocking at htext
  cases hgroup : groups.groupOf? label.uid with
  | none => simp [hgroup] at htext
  | some group =>
    rw [hgroup] at htext
    rw [List.mem_singleton.1 htext]
    exact plainLine_of_mem '[' (by simp) (by decide)

theorem Machine.keeps_unlocking (machine : Machine) (groups : LockGroups) (label : Label)
    (name : String) : ∀ text ∈ unlocking groups label, machine.Keeps name text := by
  intro text htext before after hline
  unfold unlocking at htext
  cases hgroup : groups.groupOf? label.uid with
  | none => simp [hgroup] at htext
  | some group =>
    rw [hgroup] at htext
    rw [List.mem_singleton.1 htext] at hline
    exact machine.mutexes .abort group _ name before after (List.mem_singleton_self _) hline

end Go

open Go

/-- With the locks in the program, an attempt of a step that fails at an `await` comes back to its
label with the globals that the `await` was evaluated on. So it leaves a global as it was if and
only if the lines before the `await` did, as they do when none of them changes it. -/
theorem Algorithm.toGo_attempts {algorithm : Algorithm} {definitions : Definitions}
    {atomicity : Atomicity} {settings : Settings} {program : Program}
    (hresolve : algorithm.resolve = .ok definitions)
    (hinfer : algorithm.inferAtomicity definitions = .ok atomicity)
    (hlocking : settings.locking = .inProcess)
    (hgo : algorithm.toGo definitions atomicity.groups settings = .ok program) {source : Source}
    (hsource : source ∈ algorithm.sources) {mark : Mark} {value : Expression}
    {found? : Option Label}
    (hstands : (Statement.await mark value).Stands found? none source.body) :
    ∃ function ∈ program.functions, function.name = source.name ∧
      ∃ code : List PlainCode, code = (function.body.expand SectionCall.code).code ∧
        ∃ text retried, value.toGo definitions = .ok text ∧
          retried ∈ Statement.listInnerLabels source.body ∧
          Code.In (.branch ("!" ++ text) ((unlocking atomicity.groups retried).map .line ++
            [.goto retried.name]) []) code ∧
          ∀ (machine : Machine) point test start lines tested,
            machine.Attempt code retried.name ("!" ++ text) (unlocking atomicity.groups retried)
              point test start lines tested →
            ∀ more finish, machine.Runs code test tested more point finish →
              ∃ arrived after,
                machine.Runs code point start (lines ++ unlocking atomicity.groups retried) point
                  arrived ∧
                machine.Runs code point arrived after point finish ∧
                ∀ name, machine.global name arrived = machine.global name tested ∧
                  ((∀ text ∈ lines, machine.Keeps name text) →
                    machine.global name arrived = machine.global name start) := by
  obtain ⟨function, hfunction, hname, context, hdefinitions, hgroups, hstrategy, imports, visit,
    retried, _, _, _, _, hawaits⟩ := awaits_of_toGo hresolve hinfer hgo hsource hstands
  obtain ⟨text, htext, hin⟩ := hawaits.code
  have hstrategy : context.strategy = .inProcess := by
    rw [hlocking] at hstrategy
    exact (Except.ok.inj hstrategy).symm
  refine ⟨function, hfunction, hname, _, rfl, text, retried, hdefinitions ▸ htext, hawaits.stands,
    ?_, ?_⟩
  · apply hin.expand
    rw [← hgroups, ← expand_aborting hstrategy]
    exact List.mem_singleton_self _
  · intro machine point test start lines tested hattempt more finish hruns
    have hplain := plainLine_unlocking atomicity.groups retried
    obtain ⟨arrived, after, hexecutes, _, hafter⟩ := hattempt.executes hplain hruns
    refine ⟨arrived, after, hattempt.returns hplain hexecutes, hafter, ?_⟩
    intro name
    have hsame := hexecutes.keeps (machine.keeps_unlocking atomicity.groups retried name)
    exact ⟨hsame, fun hkeeps => hsame.trans (hattempt.runs.keeps hkeeps)⟩

/-! ## An attempt that writes

The step `a` writes the global `x` before it waits. Its retry comes to the label with `x`
written. -/

private def trying : Algorithm :=
  let mark (number : UInt32) : Mark := ⟨⟨number⟩, .unknown⟩
  ⟨"T", [], [⟨⟨1⟩, "x", some (.number ⟨2⟩ 0), .plain, .unknown⟩], [],
    [⟨⟨3⟩, "P", ⟨4⟩, .single (.number ⟨5⟩ 1), [],
      [.labeled (mark 10) ⟨⟨11⟩, "a"⟩
        [.assign (mark 12) [⟨.identifier ⟨13⟩ "x", .number ⟨14⟩ 1⟩],
          .await (mark 15) (.bool ⟨16⟩ false)]]⟩]⟩

private def tryingDefinitions : Definitions :=
  ⟨[⟨⟨1⟩, "x", .global .plain, .unknown⟩, ⟨⟨4⟩, "self", .processSelf, .unknown⟩], [(⟨13⟩, ⟨1⟩)]⟩

private def tryingAtomicity : Atomicity :=
  ⟨⟨[(⟨11⟩, ⟨0⟩)], [], [(⟨0⟩, ⟨1⟩)]⟩, ⟨"T", [⟨⟨0⟩, ["P.a"], [], ["x"]⟩], []⟩, []⟩

private def tryingProgram : Program :=
  ⟨"T", "main", .none, [.initialized "x" "0"], .mutexes 1, [⟨"P", [], ⟨[.label "a",
    .leaf ⟨.inProcess, .acquire, ⟨0⟩⟩, .line "x = 1",
    .branch "!false" [.leaf ⟨.inProcess, .abort, ⟨0⟩⟩, .goto "a"] [],
    .leaf ⟨.inProcess, .release, ⟨0⟩⟩], ["a"]⟩⟩], [.single "P" "1"]⟩

private def tryingCode : List PlainCode :=
  [.label "a", .line "pgoLocks[0].Lock()", .line "x = 1",
    .branch "!false" [.line "pgoLocks[0].Unlock()", .goto "a"] [], .line "pgoLocks[0].Unlock()"]

private theorem trying_resolve : trying.resolve = .ok tryingDefinitions := by cbv

private theorem trying_infer : trying.inferAtomicity tryingDefinitions = .ok tryingAtomicity := by
  cbv

private theorem trying_toGo :
    trying.toGo tryingDefinitions tryingAtomicity.groups .default = .ok tryingProgram := by
  cbv

private theorem trying_expand : ∀ function ∈ tryingProgram.functions,
    (function.body.expand SectionCall.code).code = tryingCode := by
  intro function hfunction
  rw [List.mem_singleton.1 hfunction]
  rfl

/-- A machine with the global `x` alone. -/
private def tryingMachine : Machine where
  Memory := Nat
  Value := Nat
  global _ memory := memory
  line text before after := after = if text = "x = 1" then 1 else before
  holds condition _ := condition = "!false"
  mutexes := by
    intro action group text name before after htext hline
    have hmem : '[' ∈ text.toList := by
      cases action <;> cases List.mem_singleton.1 htext <;> simp
    have hother : text ≠ "x = 1" := by
      rintro rfl
      exact absurd hmem (by decide)
    rw [hline, if_neg hother]

private def tryingPoint : Point Empty := ⟨tryingCode, []⟩

private def tryingTest : Point Empty := ⟨tryingCode.drop 3, []⟩

private theorem trying_attempt :
    tryingMachine.Attempt tryingCode "a" "!false" ["pgoLocks[0].Unlock()"] tryingPoint tryingTest
      (0 : Nat) ["pgoLocks[0].Lock()", "x = 1"] (1 : Nat) := by
  have hlock : tryingMachine.line "pgoLocks[0].Lock()" (0 : Nat) (0 : Nat) := rfl
  have hwrite : tryingMachine.line "x = 1" (0 : Nat) (1 : Nat) := rfl
  have hlabel : Point.Free tryingPoint := trivial
  refine ⟨rfl, ⟨_, _, rfl⟩, ?_, rfl⟩
  exact .step (.free hlabel .label) (.step (.line (by decide) (by decide) hlock)
    (.step (.line (by decide) (by decide) hwrite) .refl))

private theorem trying_retry :
    tryingMachine.Runs tryingCode tryingTest (1 : Nat) ["pgoLocks[0].Unlock()"] tryingPoint
      (1 : Nat) := by
  have hunlock : tryingMachine.line "pgoLocks[0].Unlock()" (1 : Nat) (1 : Nat) := rfl
  have hexecutes : tryingMachine.Executes ["pgoLocks[0].Unlock()"] (1 : Nat) (1 : Nat) :=
    .cons hunlock .nil
  have hplain : PlainLine "pgoLocks[0].Unlock()" := ⟨by decide, by decide⟩
  exact .step (.yes rfl) (hexecutes.runs (List.forall_mem_singleton.2 hplain) rfl)

theorem Algorithm.toGo_attempts_trying :
    trying.resolve = .ok tryingDefinitions ∧
      trying.inferAtomicity tryingDefinitions = .ok tryingAtomicity ∧
      trying.toGo tryingDefinitions tryingAtomicity.groups .default = .ok tryingProgram ∧
      Code.In (.branch "!false" [.line "pgoLocks[0].Unlock()", .goto "a"] []) tryingCode ∧
      ∃ (arrived : tryingMachine.Memory) (after : List String),
        tryingMachine.Runs tryingCode tryingPoint (0 : Nat)
          ["pgoLocks[0].Lock()", "x = 1", "pgoLocks[0].Unlock()"] tryingPoint arrived ∧
        tryingMachine.Runs tryingCode tryingPoint arrived after tryingPoint (1 : Nat) ∧
        tryingMachine.global "x" arrived = (1 : Nat) := by
  refine ⟨trying_resolve, trying_infer, trying_toGo, ?_⟩
  obtain ⟨function, hfunction, _, code, hcode, text, retried, htext, hretried, hin, hattempts⟩ :=
    toGo_attempts trying_resolve trying_infer rfl trying_toGo List.mem_cons_self
      (.labeled (.later .here))
  rw [trying_expand function hfunction] at hcode
  subst hcode
  obtain rfl : "false" = text := Except.ok.inj htext
  obtain rfl : retried = ⟨⟨11⟩, "a"⟩ := List.mem_singleton.1 hretried
  refine ⟨hin, ?_⟩
  obtain ⟨arrived, after, hreturns, hafter, hglobals⟩ :=
    hattempts tryingMachine _ _ _ _ _ trying_attempt _ _ trying_retry
  exact ⟨arrived, after, hreturns, hafter, (hglobals "x").1⟩

/-- An attempt from `x` as zero comes back to the label with `x` as one. -/
theorem Algorithm.failed_attempt_writes :
    trying.resolve = .ok tryingDefinitions ∧
      trying.inferAtomicity tryingDefinitions = .ok tryingAtomicity ∧
      trying.toGo tryingDefinitions tryingAtomicity.groups .default = .ok tryingProgram ∧
      (∀ function ∈ tryingProgram.functions,
        (function.body.expand SectionCall.code).code = tryingCode) ∧
      ∃ (machine : Machine) (point test : Point Empty) (start tested finish : machine.Memory)
        (lines more : List String),
        machine.Attempt tryingCode "a" "!false" ["pgoLocks[0].Unlock()"] point test start lines
          tested ∧
        machine.Runs tryingCode test tested more point finish ∧
        machine.global "x" finish ≠ machine.global "x" start :=
  ⟨trying_resolve, trying_infer, trying_toGo, trying_expand, tryingMachine, tryingPoint, tryingTest,
    (0 : Nat), (1 : Nat), (1 : Nat), _, _, trying_attempt, trying_retry, Nat.one_ne_zero⟩

end PlusCalGo
