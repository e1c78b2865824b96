import PlusCalGo.Locking.Atomicity
import PlusCalGo.Proofs.Go.Functions
import PlusCalGo.Proofs.Go.LabelNames
import PlusCalGo.Proofs.Go.LockBalance
import PlusCalGo.Resolution.Basic

/-!
# Retries

A failed `await` gives its group up and jumps back to the label of its step. The label stands before
the code that closes the step above it, so the jump is safe if and only if no group is open when the
label is come to from above.
-/

namespace PlusCalGo.Go

/-- The label of this name is come to from above with nothing held. -/
def Quiet (code : NotedCode) (name : String) : Prop :=
  ∀ held label? label enters,
    Note.remark ⟨held, label?, .arrives label enters⟩ ∈ Code.listLeaves code →
      label.name = name → held = none

/-- Every path, with all its jumps, can be followed from nothing held. -/
def Followable (code : List SectionCode) : Prop :=
  ∀ passed point, Path (fun _ => True) code passed point → ∃ held, replay none passed = some held

/-- Nothing is held at a jump, as long as the jumps before it went to quiet labels. -/
def JumpsIdle (code : NotedCode) : Prop :=
  ∀ notes name rest frames, Path (Quiet code) code notes ⟨.goto name :: rest, frames⟩ →
    replay none (callsOf notes) = some none

/-- Every jump that a path comes to goes to a quiet label. -/
def LandsQuietly (code : NotedCode) : Prop :=
  ∀ notes name rest frames, Path (fun _ => True) code notes ⟨.goto name :: rest, frames⟩ →
    Quiet code name

theorem fits_quiet (code : NotedCode) :
    ∀ note ∈ Code.listLeaves code, note.Fits (Quiet code) := by
  intro note hnote
  cases note with
  | call call => trivial
  | remark remark =>
    obtain ⟨held, label?, subject⟩ := remark
    cases subject with
    | arrives label enters => exact fun hquiet => hquiet held label? label enters hnote rfl
    | evaluates expressions => trivial
    | calls arguments => trivial
    | retries => trivial

namespace FunctionContext

variable {context : FunctionContext} {imports : Imports} {owner : Uid}
  {locals : List VariableDecl} {body : List Statement} {code : NotedCode} {after : Progress}

/-- A label that notes of a function tell the arrival at is known by its name. -/
private theorem arrival_unique (h : context.noted imports owner locals body = .ok (code, after))
    {held other : Option LockGroup} {label? otherLabel? : Option Label} {label otherLabel : Label}
    {enters otherEnters : Bool}
    (hnote : Note.remark ⟨held, label?, .arrives label enters⟩ ∈ Code.listLeaves code)
    (hother : Note.remark ⟨other, otherLabel?, .arrives otherLabel otherEnters⟩ ∈
      Code.listLeaves code) (hname : label.name = otherLabel.name) :
    held = other ∧ enters = otherEnters := by
  obtain ⟨hnames, hnodup⟩ := noted_declares h
  rw [← hnames] at hnodup
  have hsame := eq_of_arrivalName?_eq hnodup hnote hother rfl (by simp [Note.arrivalName?, hname])
  simp only [Note.remark.injEq, Remark.mk.injEq, Subject.arrives.injEq] at hsame
  exact ⟨hsame.1, hsame.2.2.2⟩

theorem noted_jumpsIdle (h : context.noted imports owner locals body = .ok (code, after)) :
    JumpsIdle code := by
  intro notes name rest frames hpath
  obtain ⟨held, ⟨_, _, ⟨_, hgoto, _⟩, _⟩, hfollows⟩ :=
    hpath.flows (noted_flows h (fits_quiet code))
  have hheld : held = none := hgoto
  rw [hheld] at hfollows
  exact follows_replay hfollows

/-- The labels that explicit jumps go to are quiet. -/
theorem noted_quiet (h : context.noted imports owner locals body = .ok (code, after))
    {name : String} (hname : name ∈ Statement.listJumpTargets body) : Quiet code name := by
  intro held label? label enters hnote hlabel
  subst hlabel
  exact noted_fits h _ hnote hname

/-- A jump to a label that is not quiet makes the code behind the label release a group that is not
held. -/
private theorem quiet_of_balanced (h : context.noted imports owner locals body = .ok (code, after))
    (hbalanced : ∀ notes point, Path (fun _ => True) code notes point →
      ∃ held, replay none (callsOf notes) = some held)
    {notes : List Note} {name : String} {rest : NotedCode} {frames : List (Frame Note)}
    (hpath : Path (Quiet code) code notes ⟨.goto name :: rest, frames⟩) : Quiet code name := by
  intro held label? label enters hnote hname
  cases held with
  | none => rfl
  | some group =>
    exfalso
    -- An explicit jump has a quiet target. Any other jump retries a step from where it begins.
    have henters : enters = true := by
      rcases hpath.everywhere (noted_places h) with htarget | ⟨_, other, hother, hsame⟩
      · rw [← hname] at htarget
        exact absurd (noted_fits h _ hnote htarget) (by simp)
      · exact (arrival_unique h hnote hother (hname.trans hsame.symm)).2
    have hfound : name ∈ Code.listLabelNames code := by
      rw [← (noted_declares h).1, mem_arrivalNames]
      exact ⟨_, hnote, by simp [Note.arrivalName?, hname]⟩
    have hseek : Code.listSeek name [] code ≠ none := Code.listSeek_ne_none code hfound
    obtain ⟨⟨found, foundFrames⟩, hseek⟩ := Option.ne_none_iff_exists'.1 hseek
    obtain ⟨more, rfl⟩ := Code.listSeek_label code hseek
    -- The jump comes to the label with nothing held, and a group is released right behind it.
    have hopen : Path (fun _ => True) code notes ⟨.goto name :: rest, frames⟩ :=
      hpath.mono fun _ _ => trivial
    have hlabel := hopen.step (.jump trivial hseek)
    obtain ⟨other, _, otherEnters, hother, hsame, hleaves⟩ := hlabel.everywhere (noted_places h)
    obtain ⟨rfl, rfl⟩ := arrival_unique h hnote hother (hname.trans hsame.symm)
    obtain ⟨strategy, tail, rfl⟩ := hleaves henters group rfl
    obtain ⟨held, hreplay⟩ := hbalanced _ _ ((hlabel.step .label).step .leaf)
    have hidle := noted_jumpsIdle h _ _ _ _ hpath
    simp [callsOf_append, replay_append, hidle, callsOf, replay, SectionCall.run?] at hreplay

/-- A jump that a path comes to is quiet if all jumps taken before it are. -/
private theorem path_quiet
    (hquiet : ∀ notes name rest frames, Path (Quiet code) code notes ⟨.goto name :: rest, frames⟩ →
      Quiet code name)
    {notes : List Note} {point : Point Note} (hpath : Path (fun _ => True) code notes point) :
    Path (Quiet code) code notes point := by
  induction hpath with
  | start => exact .start
  | @step passed leaf before after _ hstep ih =>
    cases hstep with
    | jump _ hseek => exact ih.step (.jump (hquiet _ _ _ _ ih) hseek)
    | line hreturn hbreak => exact ih.step (.line hreturn hbreak)
    | «break» hleave => exact ih.step (.break hleave)
    | label => exact ih.step .label
    | yes => exact ih.step .yes
    | no => exact ih.step .no
    | loop => exact ih.step .loop
    | switch hmem => exact ih.step (.switch hmem)
    | block => exact ih.step .block
    | leaf => exact ih.step .leaf
    | rest => exact ih.step .rest
    | again => exact ih.step .again

/-- All paths can be followed if and only if all jumps they come to go to quiet labels. -/
theorem noted_followable_iff (h : context.noted imports owner locals body = .ok (code, after)) :
    Followable code.erase ↔ LandsQuietly code := by
  constructor
  · intro hbalanced
    have hnotes : ∀ notes point, Path (fun _ => True) code notes point →
        ∃ held, replay none (callsOf notes) = some held :=
      fun notes point hpath => hbalanced _ _ hpath.erase
    have hquiet : ∀ notes name rest frames,
        Path (Quiet code) code notes ⟨.goto name :: rest, frames⟩ → Quiet code name :=
      fun _ _ _ _ => quiet_of_balanced h hnotes
    intro notes name rest frames hpath
    exact hquiet notes name rest frames (path_quiet hquiet hpath)
  · intro hquiet passed point hpath
    obtain ⟨notes, noted, hnotes, rfl, rfl, _⟩ := hpath.lift
    have hnotes := path_quiet (fun notes name rest frames hpath =>
      hquiet notes name rest frames (hpath.mono fun _ _ => trivial)) hnotes
    obtain ⟨held, _, hfollows⟩ := hnotes.flows (noted_flows h (fits_quiet code))
    exact ⟨held, follows_replay hfollows⟩

end FunctionContext

/-! ## Programs -/

/-- In every function of a program, nothing is held at a jump as long as jumps go to quiet labels,
and the labels of explicit jumps are quiet. Those of retries need not be, and all paths can be
followed if and only if each retry that a path comes to goes back to a quiet label. -/
theorem retries_followable_iff {algorithm : Algorithm} {definitions : Definitions}
    {groups : LockGroups} {settings : Settings} {program : Program}
    (h : algorithm.toGo definitions groups settings = .ok program) :
    ∀ function ∈ program.functions, ∃ source ∈ algorithm.sources,
      ∃ context : FunctionContext, context.groups = groups ∧
        ∃ imports code progress,
          context.noted imports source.owner source.locals source.body = .ok (code, progress) ∧
          Covers (fun _ => True) code function.body.code ∧ JumpsIdle code ∧
          (∀ name ∈ Statement.listJumpTargets source.body, Quiet code name) ∧
          (Followable function.body.code ↔ LandsQuietly code) := by
  obtain ⟨context, _, hgroups, hmakes⟩ := Algorithm.toGo_makes h
  intro function hfunction
  obtain ⟨source, hsource, imports, needed, hbody⟩ := hmakes function hfunction
  obtain ⟨code, progress, hnoted, hresult, _⟩ := FunctionContext.noted_of_body hbody
  refine ⟨source, hsource, context, hgroups, imports, code, progress, hnoted, ?_⟩
  rw [hresult]
  exact ⟨covers_erase _ code, FunctionContext.noted_jumpsIdle hnoted,
    fun _ => FunctionContext.noted_quiet hnoted, FunctionContext.noted_followable_iff hnoted⟩

/-! ## A step that is retried

The step `b` touches no global and waits. It comes after the step `a`, which writes the global `x`,
and nothing but the wait jumps to it. -/

private def waiting : Algorithm :=
  let mark (number : UInt32) : Mark := ⟨⟨number⟩, .unknown⟩
  ⟨"T", [], [⟨⟨11⟩, "x", some (.number ⟨10⟩ 0), .plain, .unknown⟩], [],
    [⟨⟨12⟩, "P", ⟨13⟩, .single (.number ⟨14⟩ 1), [],
      [.labeled (mark 0) ⟨⟨1⟩, "a"⟩ [.assign (mark 2) [⟨.identifier ⟨3⟩ "x", .number ⟨4⟩ 1⟩]],
        .labeled (mark 5) ⟨⟨6⟩, "b"⟩ [.await (mark 7) (.bool ⟨8⟩ false)]]⟩]⟩

private def waitingDefinitions : Definitions :=
  ⟨[⟨⟨11⟩, "x", .global .plain, .unknown⟩, ⟨⟨13⟩, "self", .processSelf, .unknown⟩],
    [(⟨3⟩, ⟨11⟩)]⟩

private def waitingGroups : LockGroups := ⟨[(⟨1⟩, ⟨0⟩)], [], [(⟨0⟩, ⟨11⟩)]⟩

private def waitingCode : List SectionCode :=
  [.label "a", .leaf ⟨.inProcess, .acquire, ⟨0⟩⟩, .line "x = 1", .label "b",
    .leaf ⟨.inProcess, .release, ⟨0⟩⟩, .branch "!false" [.goto "b"] []]

private def waitingProgram : Program :=
  ⟨"T", "main", .none, [.initialized "x" "0"], .mutexes 1, [⟨"P", [], ⟨waitingCode, ["b"]⟩⟩],
    [.single "P" "1"]⟩

private theorem waiting_toGo :
    waiting.toGo waitingDefinitions waitingGroups .default = .ok waitingProgram := by
  cbv

theorem retries_followable_iff_waiting :
    waiting.toGo waitingDefinitions waitingGroups .default = .ok waitingProgram ∧
      ∃ code : NotedCode, code.erase = waitingCode ∧
        (Followable waitingCode ↔ LandsQuietly code) := by
  refine ⟨waiting_toGo, ?_⟩
  obtain ⟨source, _, context, _, imports, code, progress, _, hcovers, _, _, hiff⟩ :=
    retries_followable_iff waiting_toGo _ List.mem_cons_self
  exact ⟨code, hcovers.1, hiff⟩

/-- The retry goes back to a label behind which the group of the step before is released, so that a
group is released that is not held. -/
theorem retry_releases_unheld :
    waiting.resolve = .ok waitingDefinitions ∧
      (∃ report warnings,
        waiting.inferAtomicity waitingDefinitions = .ok ⟨waitingGroups, report, warnings⟩) ∧
      waiting.toGo waitingDefinitions waitingGroups .default = .ok waitingProgram ∧
      (∃ function ∈ waitingProgram.functions, function.body.code = waitingCode) ∧
      ∃ passed point, Path (fun _ => True) waitingCode passed point ∧
        replay none passed = none := by
  refine ⟨by cbv, ⟨⟨"T", [⟨⟨0⟩, ["P.a"], [], ["x"]⟩], ["P.b"]⟩, [], by cbv⟩, waiting_toGo,
    ⟨_, List.mem_cons_self, rfl⟩, ?_⟩
  have hstart : Path (fun _ => True) waitingCode [] ⟨waitingCode, []⟩ := .start
  have hlabel := ((hstart.step .label).step .leaf).step (.line (by decide) (by decide))
  have hretry := (((hlabel.step .label).step .leaf).step .yes).step (.jump trivial rfl)
  exact ⟨_, _, (hretry.step .label).step .leaf, rfl⟩

end PlusCalGo.Go
