import PlusCalGo.Locking.Atomicity
import PlusCalGo.Proofs.Go.JumpScopes
import PlusCalGo.Proofs.Resolution.Placement
import PlusCalGo.Resolution.Basic

/-!
# Where jumps land

Each jump of a function has one label of its name in the function, and Go lets the jump reach it
where the statements say so. A retry always reaches its label if none stands in the block of a
`with`; an explicit jump reaches its label only where the algorithm has put it in a block around.
-/

namespace PlusCalGo

open Go

namespace Statement

/-! ## Explicit jumps -/

mutual

/-- The explicit jumps of a statement, given the labels that are visible around it. -/
def gotos (visible : List String) : Statement → List Jump
  | labeled _ _ body => listGotos visible body
  | whileDo _ _ body | withDo _ _ body => listGotos (listBlockLabels body ++ visible) body
  | ifElse _ _ yes no =>
    listGotos (listBlockLabels yes ++ visible) yes ++ listGotos (listBlockLabels no ++ visible) no
  | either _ cases => casesGotos visible cases
  | goto _ target => if target = Label.done then [] else [⟨target, visible⟩]
  | assign .. | leave _ | skip _ | call .. | macroCall .. | print .. | assert .. | await .. => []

def listGotos (visible : List String) : List Statement → List Jump
  | [] => []
  | statement :: rest => statement.gotos visible ++ listGotos visible rest

def casesGotos (visible : List String) : List (List Statement) → List Jump
  | [] => []
  | body :: rest => listGotos (listBlockLabels body ++ visible) body ++ casesGotos visible rest

end

/-- The explicit jumps of the body of a function. -/
def bodyGotos (body : List Statement) : List Jump := listGotos (listBlockLabels body) body

/-- No label stands in the block of the statement, if this is a `with`. -/
def BindsPlainly : Statement → Prop
  | withDo _ _ body => listBlockLabels body = []
  | _ => True

/-- No label stands in the block of a `with` of the list. -/
def ListBindsPlainly (statements : List Statement) : Prop :=
  ∀ statement ∈ statements, statement.BindsPlainly

section Steps

variable {groups : LockGroups} {targets visible : List String} {step : Option (Uid × String)}
  {entry : Uid × String}

theorem mem_begin {label : Label} (h : entry ∈ groups.begin targets step label) :
    entry ∈ step ∨ entry = (label.uid, label.name) := by
  unfold LockGroups.begin at h
  simp only at h
  split at h
  · split at h
    · split at h
      · cases h
      · exact .inl h
    · exact .inr (Option.some.inj h).symm
  · exact .inr (Option.some.inj h).symm

mutual

/-- A step goes on or begins at a label in the block. -/
theorem mem_stepAfter (statement : Statement) {step : Option (Uid × String)}
    (hplain : statement.BindsPlainly) (hnested : statement.Nested ListBindsPlainly)
    (h : entry ∈ statement.stepAfter groups targets step) :
    entry ∈ step ∨ entry.2 ∈ statement.blockLabels := by
  cases statement with
  | labeled mark label body =>
    rcases mem_listStepAfter body hnested.1 hnested.2 h with hbegin | hbody
    · rcases mem_begin hbegin with hstep | rfl
      · exact .inl hstep
      · exact .inr List.mem_cons_self
    · exact .inr (List.mem_cons_of_mem _ hbody)
  | ifElse mark condition yes no =>
    rw [stepAfter] at h
    split at h
    · cases h
    · exact .inl h
  | either mark cases =>
    rw [stepAfter] at h
    split at h
    · cases h
    · exact .inl h
  | withDo mark bindings body =>
    rcases mem_listStepAfter body hnested.1 hnested.2 h with hstep | hbody
    · exact .inl hstep
    · have hnone : listBlockLabels body = [] := hplain
      rw [hnone] at hbody
      cases hbody
  | leave mark => cases h
  | call mark target arguments => cases h
  | goto mark target => cases h
  | whileDo mark condition body => exact .inl h
  | assign mark pairs => exact .inl h
  | skip mark => exact .inl h
  | macroCall mark target arguments => exact .inl h
  | print mark value => exact .inl h
  | assert mark value => exact .inl h
  | await mark value => exact .inl h

theorem mem_listStepAfter (statements : List Statement) {step : Option (Uid × String)}
    (hplain : ListBindsPlainly statements) (hnested : ListNested ListBindsPlainly statements)
    (h : entry ∈ listStepAfter groups targets step statements) :
    entry ∈ step ∨ entry.2 ∈ listBlockLabels statements := by
  cases statements with
  | nil => exact .inl h
  | cons statement rest =>
    obtain ⟨hfirst, hrest⟩ := List.forall_mem_cons.1 hplain
    rw [listBlockLabels, List.mem_append]
    rcases mem_listStepAfter rest hrest hnested.2 h with hbetween | hlater
    · exact (mem_stepAfter statement hfirst hnested.1 hbetween).imp_right .inl
    · exact .inr (.inr hlater)

end

mutual

/-- As long as the label of the step is visible, all jumps reach their labels if the explicit ones
do. -/
theorem allowed_statement (statement : Statement) {step : Option (Uid × String)}
    {visible : List String} (hplain : statement.BindsPlainly)
    (hnested : statement.Nested ListBindsPlainly) (hstep : ∀ entry ∈ step, entry.2 ∈ visible)
    (hlabels : ∀ name ∈ statement.blockLabels, name ∈ visible) :
    (∀ jump ∈ statement.jumpsFrom groups targets step visible, jump.Allowed) ↔
      ∀ jump ∈ statement.gotos visible, jump.Allowed := by
  have hinner (body : List Statement) : ∀ entry ∈ step, entry.2 ∈ listBlockLabels body ++ visible :=
    fun entry hentry => List.mem_append_right _ (hstep entry hentry)
  cases statement with
  | labeled mark label body =>
    obtain ⟨hlabel, hbody⟩ := List.forall_mem_cons.1 hlabels
    refine allowed_statements body hnested.1 hnested.2 ?_ hbody
    intro entry hentry
    rcases mem_begin hentry with hentry | rfl
    · exact hstep entry hentry
    · exact hlabel
  | whileDo mark condition body =>
    exact allowed_statements body hnested.1 hnested.2 (hinner body)
      fun _ => List.mem_append_left visible
  | ifElse mark condition yes no =>
    obtain ⟨⟨hyesPlain, hyesNested⟩, hnoPlain, hnoNested⟩ := hnested
    rw [jumpsFrom, gotos, List.forall_mem_append, List.forall_mem_append]
    exact and_congr
      (allowed_statements yes hyesPlain hyesNested (hinner yes)
        fun _ => List.mem_append_left visible)
      (allowed_statements no hnoPlain hnoNested (hinner no) fun _ => List.mem_append_left visible)
  | either mark cases => exact allowed_cases cases hnested hstep
  | withDo mark bindings body =>
    exact allowed_statements body hnested.1 hnested.2 (hinner body)
      fun _ => List.mem_append_left visible
  | await mark value =>
    refine iff_of_true ?_ (List.forall_mem_nil _)
    intro jump hjump
    cases hentry : step with
    | none =>
      rw [hentry] at hjump
      cases hjump
    | some entry =>
      rw [hentry] at hjump
      rw [List.mem_singleton.1 hjump]
      exact hstep entry hentry
  | goto mark target => exact Iff.rfl
  | assign mark pairs => exact Iff.rfl
  | leave mark => exact Iff.rfl
  | skip mark => exact Iff.rfl
  | call mark target arguments => exact Iff.rfl
  | macroCall mark target arguments => exact Iff.rfl
  | print mark value => exact Iff.rfl
  | assert mark value => exact Iff.rfl

theorem allowed_statements (statements : List Statement) {step : Option (Uid × String)}
    {visible : List String} (hplain : ListBindsPlainly statements)
    (hnested : ListNested ListBindsPlainly statements) (hstep : ∀ entry ∈ step, entry.2 ∈ visible)
    (hlabels : ∀ name ∈ listBlockLabels statements, name ∈ visible) :
    (∀ jump ∈ listJumpsFrom groups targets step visible statements, jump.Allowed) ↔
      ∀ jump ∈ listGotos visible statements, jump.Allowed := by
  cases statements with
  | nil => exact Iff.rfl
  | cons statement rest =>
    obtain ⟨hfirst, hrest⟩ := List.forall_mem_cons.1 hplain
    obtain ⟨hfirstLabels, hrestLabels⟩ := List.forall_mem_append.1 hlabels
    rw [listJumpsFrom, listGotos, List.forall_mem_append, List.forall_mem_append]
    refine and_congr (allowed_statement statement hfirst hnested.1 hstep hfirstLabels)
      (allowed_statements rest hrest hnested.2 ?_ hrestLabels)
    intro entry hentry
    rcases mem_stepAfter statement hfirst hnested.1 hentry with hentry | hlabel
    · exact hstep entry hentry
    · exact hfirstLabels _ hlabel

theorem allowed_cases (cases : List (List Statement)) {step : Option (Uid × String)}
    {visible : List String} (hnested : CasesNested ListBindsPlainly cases)
    (hstep : ∀ entry ∈ step, entry.2 ∈ visible) :
    (∀ jump ∈ casesJumpsFrom groups targets step visible cases, jump.Allowed) ↔
      ∀ jump ∈ casesGotos visible cases, jump.Allowed := by
  cases cases with
  | nil => exact Iff.rfl
  | cons body rest =>
    obtain ⟨⟨hplain, hbody⟩, hrest⟩ := hnested
    rw [casesJumpsFrom, casesGotos, List.forall_mem_append, List.forall_mem_append]
    exact and_congr
      (allowed_statements body hplain hbody
        (fun entry hentry => List.mem_append_right _ (hstep entry hentry))
        fun _ => List.mem_append_left visible)
      (allowed_cases rest hrest hstep)

end

end Steps

end Statement

namespace Go

/-! ## Rendered labels -/

/-- The name of the label that a line declares. -/
def CodeLine.labelName? : CodeLine → Option String
  | label name _ => some name
  | text .. | goto .. => none

@[simp] private theorem labels_text (indent : Nat) (content : String) (rest : List CodeLine) :
    (CodeLine.text indent content :: rest).filterMap CodeLine.labelName? =
      rest.filterMap CodeLine.labelName? := rfl

namespace Code

variable (targets : List String)

mutual

private theorem labels_lines (code : PlainCode) (indent : Nat) (isLast : Bool) :
    (code.lines targets indent isLast).filterMap CodeLine.labelName? =
      code.labelNames.filter (· ∈ targets) := by
  cases code with
  | line text => rfl
  | label name =>
    rw [lines, labelNames, List.filter_singleton]
    by_cases htarget : name ∈ targets <;> simp [htarget, CodeLine.labelName?]
  | goto name => rfl
  | branch condition yes no =>
    have hyes := labels_listLines yes (indent + 1)
    have hno := labels_listLines no (indent + 1)
    cases no with
    | nil => simp [lines, labelNames, listLabelNames, hyes]
    | cons first rest => simp [lines, labelNames, hyes, hno]
  | loop body => simp [lines, labelNames, labels_listLines body (indent + 1)]
  | switch subject cases => simp [lines, labelNames, labels_casesLines cases indent 0]
  | block body => simp [lines, labelNames, labels_listLines body (indent + 1)]
  | leaf content => exact content.elim

/-- The labels that something jumps to are rendered, each as one line. -/
theorem labels_listLines (code : List PlainCode) (indent : Nat) :
    (listLines targets indent code).filterMap CodeLine.labelName? =
      (listLabelNames code).filter (· ∈ targets) := by
  cases code with
  | nil => rfl
  | cons first rest =>
    rw [listLines, List.filterMap_append, labels_lines first, labels_listLines rest,
      listLabelNames, List.filter_append]

private theorem labels_casesLines (cases : List (List PlainCode)) (indent index : Nat) :
    (casesLines targets indent index cases).filterMap CodeLine.labelName? =
      (casesLabelNames cases).filter (· ∈ targets) := by
  cases cases with
  | nil => rfl
  | cons body rest =>
    simp [casesLines, casesLabelNames, labels_listLines body (indent + 1),
      labels_casesLines rest indent (index + 1)]

end

end Code

/-! ## Functions -/

section Functions

variable {context : FunctionContext} {imports needed : Imports} {owner : Uid}
  {locals : List VariableDecl} {body : List Statement} {result : FunctionBody SectionCall}

namespace FunctionContext

/-- The code of a function has the labels and the jumps that its statements say. -/
theorem emits_of_body (h : context.body imports owner locals body = .ok (result, needed)) :
    ∃ (code : NotedCode) (last : Progress), result = ⟨code.erase, last.targets⟩ ∧
      (∀ name ∈ last.targets, name ∈ Code.listLabelNames code) ∧
      (Code.listLabelNames code).Nodup ∧
      Emits (Statement.listBlockLabels body)
        (Statement.listJumpsFrom context.groups (Statement.listJumpTargets body) none · body)
        (context.start imports owner) code last := by
  obtain ⟨code, progress, hnoted, rfl, htargets⟩ := made_of_body h
  obtain ⟨_, hlabels, _⟩ := noted_labels hnoted
  obtain ⟨_, hnodup⟩ := noted_declares hnoted
  have hdeclared : ∀ name ∈ progress.targets, name ∈ Code.listLabelNames code := by
    intro name hname
    simpa [hlabels, start] using htargets name hname
  refine ⟨code, progress, rfl, hdeclared, hnodup, ?_⟩
  obtain ⟨front, inner, last, hfront, hinner, rfl, rfl⟩ := noted_ok hnoted
  have hanchored : (context.start imports owner).Anchored (Statement.listJumpTargets body) :=
    ⟨rfl, by simp [start, Tracker.new], by simp [start]⟩
  have hgroups : (context.start imports owner).tracker.groups.value = context.groups := rfl
  obtain ⟨hbody, _⟩ := emits_statements body (.self _) hanchored hgroups hinner
  have hfront : Emits [] (fun _ => []) (context.start imports owner) front
      (context.start imports owner) := .straight hfront.straight rfl
  have hclosing : Emits [] (fun _ => []) last (NotedCode.ofCalls last.tracker.closing)
      { last with tracker := last.tracker.idle } := .ofCalls _ rfl
  have hall := hfront.append (hbody.append hclosing)
  simp only [List.nil_append, List.append_nil] at hall
  exact hall

/-- The jumps of a function are those of its statements, and each has one label of its name. -/
theorem jumps_of_body (h : context.body imports owner locals body = .ok (result, needed)) :
    Code.bodyJumps result.code = Statement.bodyJumps context.groups body ∧
      ∀ jump ∈ Statement.bodyJumps context.groups body,
        jump.name ∈ result.targets ∧ (Code.listLabelNames result.code).count jump.name = 1 := by
  obtain ⟨code, last, rfl, hdeclared, hnodup, hown, hmade, hnames⟩ := emits_of_body h
  constructor
  · refine (NotedCode.bodyJumps_erase _).trans ?_
    rw [Code.bodyJumps, hown, hmade]
    rfl
  · intro jump hjump
    have htarget : jump.name ∈ last.targets := by
      rw [hnames (Statement.listBlockLabels body)]
      exact List.mem_append_left _ (List.mem_reverse.2 (List.mem_map_of_mem hjump))
    refine ⟨htarget, ?_⟩
    rw [NotedCode.labelNames_erase]
    exact List.count_eq_one_of_mem hnodup (hdeclared _ htarget)

/-- The names that a function has recorded as jumped to are those of its jumps, latest first. -/
theorem targets_of_body (h : context.body imports owner locals body = .ok (result, needed)) :
    result.targets = ((Statement.bodyJumps context.groups body).map Jump.name).reverse := by
  obtain ⟨code, last, rfl, _, _, hemits⟩ := emits_of_body h
  exact (hemits.targets (Statement.listBlockLabels body)).trans (List.append_nil _)

end FunctionContext

end Functions

/-- The body of the function, written out. -/
def Function.written (function : Function) : FunctionBody Empty :=
  function.body.expand SectionCall.code

/-- How many lines of the function declare the label. -/
def Function.labelCount (function : Function) (name : String) : Nat :=
  ((function.written.lines 1).filterMap CodeLine.labelName?).count name

end Go

namespace Algorithm

variable {algorithm : Algorithm} {definitions : Definitions} {groups : LockGroups}
  {settings : Settings} {program : Program}

/-- Every function has the jumps that the statements it is made from say, and one line declares the
label of each. If no label stands in the block of a `with`, then Go lets all jumps of the function
reach their labels exactly if it lets the explicit ones. -/
theorem toGo_jumps (h : algorithm.toGo definitions groups settings = .ok program) :
    ∀ function ∈ program.functions, ∃ source ∈ algorithm.sources, function.name = source.name ∧
      Code.bodyJumps function.written.code = Statement.bodyJumps groups source.body ∧
      (∀ jump ∈ Code.bodyJumps function.written.code, function.labelCount jump.name = 1) ∧
      (Statement.Throughout Statement.ListBindsPlainly source.body →
        ((∀ jump ∈ Code.bodyJumps function.written.code, jump.Allowed) ↔
          ∀ jump ∈ Statement.bodyGotos source.body, jump.Allowed)) := by
  obtain ⟨strategy, _, hall⟩ := toGo_makesAll h
  intro function hfunction
  obtain ⟨source, hsource, hname, imports, needed, hbody⟩ := hall.made function hfunction
  obtain ⟨hjumps, hlabels⟩ := FunctionContext.jumps_of_body hbody
  have hsame : Code.bodyJumps function.written.code = Statement.bodyJumps groups source.body :=
    (Code.bodyJumps_listExpand SectionCall.straight _).trans hjumps
  refine ⟨source, hsource, hname, hsame, ?_, ?_⟩
  · intro jump hjump
    obtain ⟨htarget, hcount⟩ := hlabels jump (hsame ▸ hjump)
    have hwrite (call : SectionCall) : Code.listLabelNames (call.code : List PlainCode) = [] :=
      call.straight.1
    rw [Function.labelCount, FunctionBody.lines, Code.labels_listLines, Function.written,
      FunctionBody.expand, Code.labelNames_listExpand hwrite,
      List.count_filter (by simpa using htarget)]
    exact hcount
  · intro hplain
    rw [hsame]
    exact Statement.allowed_statements source.body hplain.1 hplain.2 (by simp)
      fun _ hname => hname

end Algorithm

/-! ## A retry into a binding

Step `b` stands in the block of a `with`, and step `c` goes on in its section. -/

private def bindingBody : List Statement :=
  let mark (number : UInt32) : Mark := ⟨⟨number⟩, .unknown⟩
  [.labeled (mark 10) ⟨⟨11⟩, "a"⟩
      [.withDo (mark 12) [⟨⟨13⟩, "v", some (.number ⟨14⟩ 1), .plain, .unknown⟩]
        [.labeled (mark 15) ⟨⟨16⟩, "b"⟩
          [.assign (mark 17) [⟨.identifier ⟨18⟩ "x", .identifier ⟨19⟩ "v"⟩]]]],
    .labeled (mark 20) ⟨⟨21⟩, "c"⟩
      [.await (mark 22) (.binary ⟨23⟩ .equal (.identifier ⟨24⟩ "x") (.number ⟨25⟩ 2))]]

example : Statement.bodyJumps ⟨[(⟨16⟩, ⟨0⟩), (⟨21⟩, ⟨0⟩)], [(⟨0⟩, ⟨1⟩)], []⟩ bindingBody =
    [⟨"b", ["a", "c"]⟩] := by decide

/-! ## Jumps out of a loop

The loop of step `a` holds step `b`, which waits for a global and goes back to `a`. -/

private def leapingBody : List Statement :=
  let mark (number : UInt32) : Mark := ⟨⟨number⟩, .unknown⟩
  let waiting : Statement :=
    .await (mark 22) (.binary ⟨23⟩ .equal (.identifier ⟨24⟩ "x") (.number ⟨25⟩ 2))
  [.labeled (mark 10) ⟨⟨11⟩, "a"⟩
    [.whileDo (mark 12) (.bool ⟨13⟩ true)
      [.labeled (mark 20) ⟨⟨21⟩, "b"⟩ [waiting, .goto (mark 26) "a"]]]]

private def leaping : Algorithm :=
  ⟨"T", [], [⟨⟨1⟩, "x", some (.number ⟨2⟩ 0), .plain, .unknown⟩], [],
    [⟨⟨3⟩, "P", ⟨4⟩, .single (.number ⟨5⟩ 1), [], leapingBody⟩]⟩

private def leapingDefinitions : Definitions :=
  ⟨[⟨⟨1⟩, "x", .global .plain, .unknown⟩, ⟨⟨4⟩, "self", .processSelf, .unknown⟩], [(⟨24⟩, ⟨1⟩)]⟩

private def leapingGroups : LockGroups := ⟨[(⟨21⟩, ⟨0⟩)], [(⟨0⟩, ⟨1⟩)], []⟩

private def leapingProgram : Program :=
  ⟨"T", "main", .none, [.initialized "x" "0"], .mutexes 1,
    [⟨"P", [], ⟨[.label "a",
      .loop [.branch "!true" [.line "break"] [], .label "b", .leaf ⟨.inProcess, .acquire, ⟨0⟩⟩,
        .branch "!(x == 2)" [.leaf ⟨.inProcess, .abort, ⟨0⟩⟩, .goto "b"] [],
        .leaf ⟨.inProcess, .release, ⟨0⟩⟩, .goto "a"]], ["a", "b"]⟩⟩],
    [.single "P" "1"]⟩

private theorem leaping_toGo :
    leaping.toGo leapingDefinitions leapingGroups .default = .ok leapingProgram := by cbv

theorem Algorithm.toGo_jumps_leaping :
    leaping.toGo leapingDefinitions leapingGroups .default = .ok leapingProgram ∧
      ∀ function ∈ leapingProgram.functions, ∀ jump ∈ Code.bodyJumps function.written.code,
        jump.Allowed ∧ function.labelCount jump.name = 1 := by
  refine ⟨leaping_toGo, ?_⟩
  intro function hfunction jump hjump
  obtain ⟨source, hsource, _, _, hcount, hallowed⟩ := toGo_jumps leaping_toGo function hfunction
  rw [List.mem_singleton.1 hsource] at hallowed
  have hplain : Statement.Throughout Statement.ListBindsPlainly leapingBody := by
    simp [leapingBody, Statement.Throughout, Statement.ListBindsPlainly, Statement.ListNested,
      Statement.Nested, Statement.BindsPlainly]
  have hgotos : ∀ jump ∈ Statement.bodyGotos leapingBody, jump.Allowed := by decide
  exact ⟨(hallowed hplain).2 hgotos jump hjump, hcount jump hjump⟩

/-! ## A jump into a branch

Step `c` goes to the label `b`, which stands in a branch of step `a`. -/

private def entering : Algorithm :=
  let mark (number : UInt32) : Mark := ⟨⟨number⟩, .unknown⟩
  ⟨"T", [], [], [],
    [⟨⟨1⟩, "P", ⟨2⟩, .single (.number ⟨3⟩ 1), [],
      [.labeled (mark 10) ⟨⟨11⟩, "a"⟩
          [.ifElse (mark 12) (.bool ⟨13⟩ true)
            [.labeled (mark 14) ⟨⟨15⟩, "b"⟩ [.skip (mark 16)]] []],
        .labeled (mark 20) ⟨⟨21⟩, "c"⟩ [.goto (mark 22) "b"]]⟩]⟩

private def enteringDefinitions : Definitions :=
  ⟨[⟨⟨2⟩, "self", .processSelf, .unknown⟩], []⟩

private def enteringAtomicity : Atomicity :=
  ⟨⟨[], [], []⟩, ⟨"T", [], ["P.a", "P.b", "P.c"]⟩, []⟩

private def enteringProgram : Program :=
  ⟨"T", "main", .none, [], .mutexes 0,
    [⟨"P", [], ⟨[.label "a", .branch "true" [.label "b"] [], .label "c", .goto "b"], ["b"]⟩⟩],
    [.single "P" "1"]⟩

theorem Algorithm.jump_enters_branch :
    entering.resolve = .ok enteringDefinitions ∧
      entering.inferAtomicity enteringDefinitions = .ok enteringAtomicity ∧
      entering.toGo enteringDefinitions enteringAtomicity.groups .default = .ok enteringProgram ∧
      ∃ function ∈ enteringProgram.functions, ∃ jump ∈ Code.bodyJumps function.written.code,
        jump.name = "b" ∧ ¬ jump.Allowed := by
  refine ⟨by cbv, by cbv, by cbv, _, List.mem_singleton_self _, ⟨"b", ["a", "c"]⟩, ?_, rfl, ?_⟩
  · decide
  · decide

end PlusCalGo
