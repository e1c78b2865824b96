import PlusCalGo.Proofs.Names.Functions
import PlusCalGo.Proofs.Names.Variables

/-!
# Names in programs

Every function of a program can be read with its names: each stands for something that is declared
around it, and denotes that unless it is taken away. In an algorithm that keeps names apart, none
is.
-/

namespace PlusCalGo

open Go

/-! ## Routines -/

/-- What a function is made from, with its parameters. -/
structure Routine where
  source : Source
  params : List VariableDecl

/-- The variables that the author of a routine declares in it. -/
def Routine.variables (routine : Routine) : List VariableDecl :=
  routine.params ++ (routine.source.locals ++ Statement.listBindings routine.source.body)

def Procedure.routine (procedure : Procedure) : Routine := ⟨procedure.source, procedure.params⟩

def Process.routine (process : Process) : Routine := ⟨process.source, []⟩

namespace Algorithm

def routines (algorithm : Algorithm) : List Routine :=
  algorithm.procedures.map Procedure.routine ++ algorithm.processes.map Process.routine

/-- The names of constants and variables around the code of a routine. -/
def sourceNames (algorithm : Algorithm) (locking : LockingMode) (routine : Routine) :
    List String :=
  (algorithm.entries (algorithm.packageGlobals locking)).map (·.1) ++
    routine.variables.map (·.name)

def functionNames (algorithm : Algorithm) : List String :=
  algorithm.routines.map (·.source.name) ++ ["main"]

/-- In no routine a name has two sorts of things to stand for. None is reserved, no variable is
called like a function, and under a state service none is called like a global. -/
def KeepsApart (algorithm : Algorithm) (locking : LockingMode) : Prop :=
  ∀ routine ∈ algorithm.routines, Apart (algorithm.sourceNames locking routine)
    ((algorithm.copiedGlobals locking).map (·.name)) algorithm.functionNames

instance (algorithm : Algorithm) (locking : LockingMode) :
    Decidable (algorithm.KeepsApart locking) :=
  inferInstanceAs (Decidable (∀ routine ∈ algorithm.routines, _))

end Algorithm

namespace Go

/-- The function is made from the routine, and the code is its body with names. -/
structure FunctionContext.Names (context : FunctionContext) (routine : Routine)
    (function : Function) (code : List NamedCode) : Prop where
  name : function.name = routine.source.name
  params : function.params =
    routine.params.map fun param => (param.name, param.resource.goType)
  lowered : ∃ imports after, nameFunction context.definitions context.copies routine.source.locals
    routine.source.body (context.start imports routine.source.owner) = .ok (code, after)
  plain : NamedCode.listPlain code = ((function.body.expand SectionCall.code).code : List PlainCode)

section Names

variable {context : FunctionContext} {imports needed : Imports}

/-- Every function that is made has names. -/
private theorem names_of_body (routine : Routine) {body : FunctionBody SectionCall}
    (h : context.body imports routine.source.owner routine.source.locals routine.source.body =
      .ok (body, needed)) :
    ∃ code, context.Names routine ⟨routine.source.name,
      routine.params.map fun param => (param.name, param.resource.goType), body⟩ code := by
  obtain ⟨noted, after, hnoted, hcode, _⟩ := FunctionContext.noted_of_body h
  obtain ⟨code, hnamed, hspells⟩ := mirrors_function _ _ _ _ _ noted after hnoted
  refine ⟨code, rfl, rfl, ⟨imports, after, hnamed⟩, ?_⟩
  rw [FunctionBody.expand, hcode, NotedCode.expand_erase]
  exact hspells

private theorem names_of_procedures {procedures : List Procedure} {functions : List Function}
    (h : context.procedures imports procedures = .ok (functions, needed)) :
    ∀ function ∈ functions, ∃ procedure ∈ procedures, ∃ code,
      context.Names procedure.routine function code := by
  induction procedures generalizing imports functions with
  | nil =>
    cases h
    exact List.forall_mem_nil _
  | cons procedure rest ih =>
    obtain ⟨⟨body, between⟩, hbody, h⟩ := ok_of_bind h
    obtain ⟨⟨others, last⟩, hrest, h⟩ := ok_of_bind h
    cases h
    obtain ⟨code, hcode⟩ := names_of_body procedure.routine hbody
    refine List.forall_mem_cons.2 ⟨⟨procedure, List.mem_cons_self, code, hcode⟩, ?_⟩
    intro function hfunction
    obtain ⟨other, hother, hnames⟩ := ih hrest function hfunction
    exact ⟨other, List.mem_cons_of_mem procedure hother, hnames⟩

private theorem names_of_processes {processes : List Process} {functions : List Function}
    (h : context.processes imports processes = .ok (functions, needed)) :
    ∀ function ∈ functions, ∃ process ∈ processes, ∃ code,
      context.Names process.routine function code := by
  induction processes generalizing imports functions with
  | nil =>
    cases h
    exact List.forall_mem_nil _
  | cons process rest ih =>
    obtain ⟨⟨body, between⟩, hbody, h⟩ := ok_of_bind h
    obtain ⟨⟨others, last⟩, hrest, h⟩ := ok_of_bind h
    cases h
    obtain ⟨code, hcode⟩ := names_of_body process.routine hbody
    refine List.forall_mem_cons.2 ⟨⟨process, List.mem_cons_self, code, hcode⟩, ?_⟩
    intro function hfunction
    obtain ⟨other, hother, hnames⟩ := ih hrest function hfunction
    exact ⟨other, List.mem_cons_of_mem process hother, hnames⟩

end Names

end Go

namespace Algorithm

variable {algorithm : Algorithm} {definitions : Definitions} {groups : LockGroups}
  {atomicity : Atomicity} {settings : Settings} {program : Program}

/-- The blocks around the code of a routine. -/
def blocks (algorithm : Algorithm) (program : Program) (locking : LockingMode)
    (routine : Routine) : Blocks :=
  [headBlock routine.params, program.block (algorithm.entries (algorithm.packageGlobals locking))]

private theorem toGo_routines (h : algorithm.toGo definitions groups settings = .ok program) :
    ∃ strategy, Strategy.ofMode settings.locking groups definitions = .ok strategy ∧
      algorithm.lockHome definitions groups settings = .ok program.locks ∧
      ∀ function ∈ program.functions, ∃ routine ∈ algorithm.routines, ∃ code,
        (algorithm.context definitions groups settings.locking strategy).Names routine function
          code := by
  obtain ⟨strategy, hstrategy, h⟩ := ok_of_bind h
  obtain ⟨⟨procedures, between⟩, hprocedures, h⟩ := ok_of_bind h
  obtain ⟨⟨processes, imports⟩, hprocesses, h⟩ := ok_of_bind h
  obtain ⟨constants, _, h⟩ := ok_of_bind h
  obtain ⟨globals, _, h⟩ := ok_of_bind h
  obtain ⟨locks, hlocks, h⟩ := ok_of_bind h
  obtain ⟨launches, _, h⟩ := ok_of_bind h
  cases h
  refine ⟨strategy, hstrategy, hlocks, fun function hfunction => ?_⟩
  rcases List.mem_append.1 hfunction with hfunction | hfunction
  · obtain ⟨procedure, hprocedure, hnames⟩ := names_of_procedures hprocedures function hfunction
    exact ⟨_, List.mem_append_left _ (List.mem_map_of_mem hprocedure), hnames⟩
  · obtain ⟨process, hprocess, hnames⟩ := names_of_processes hprocesses function hfunction
    exact ⟨_, List.mem_append_right _ (List.mem_map_of_mem hprocess), hnames⟩

/-- With the copies of globals the blocks around a routine fit its scope. -/
private theorem fits_routine {strategy : Strategy} (hscoped : algorithm.Scoped definitions)
    (hstrategy : Strategy.ofMode settings.locking groups definitions = .ok strategy)
    (hlocks : algorithm.lockHome definitions groups settings = .ok program.locks)
    {routine : Routine} (hroutine : routine ∈ algorithm.routines) :
    ∃ scopes, (algorithm.context definitions groups settings.locking strategy).Fits scopes
        [copyBlock (algorithm.copiedGlobals settings.locking) ++ headBlock routine.params,
          program.block (algorithm.entries (algorithm.packageGlobals settings.locking))] ∧
      scopes.Takes definitions .localVariable routine.source.locals ∧
      Statement.ListScoped definitions (scopes.addAll routine.source.locals)
        routine.source.body := by
  have hstart := fits_start hscoped hstrategy hlocks
  rcases List.mem_append.1 hroutine with hroutine | hroutine
  · obtain ⟨procedure, hprocedure, rfl⟩ := List.mem_map.1 hroutine
    obtain ⟨hparams, hlocals, hbody⟩ := hscoped.procedures procedure hprocedure
    have hfits := hstart.addAll procedure.params hparams fun _ => rfl
    exact ⟨_, hfits.perm (List.perm_append_comm_assoc _ _ _), hlocals, hbody⟩
  · obtain ⟨process, hprocess, rfl⟩ := List.mem_map.1 hroutine
    obtain ⟨hself, hlocals, hbody⟩ := hscoped.processes process hprocess
    exact ⟨_, hstart.addSelf hself (hosts_self fun _ => ⟨rfl, by simp⟩), hlocals, hbody⟩

/-- All names in the code of a routine stand for something around them. -/
private theorem hosted_of_names {strategy : Strategy}
    (hresolve : algorithm.resolve = .ok definitions)
    (hinfer : algorithm.inferAtomicity definitions = .ok atomicity)
    (hstrategy : Strategy.ofMode settings.locking atomicity.groups definitions = .ok strategy)
    (hlocks : algorithm.lockHome definitions atomicity.groups settings = .ok program.locks)
    {routine : Routine} (hroutine : routine ∈ algorithm.routines) {function : Function}
    {code : List NamedCode}
    (hnames : (algorithm.context definitions atomicity.groups settings.locking strategy).Names
      routine function code) :
    NamedCode.Hosted definitions strategy (algorithm.blocks program settings.locking routine)
      code := by
  have hscoped := scoped_of_resolve hresolve
  obtain ⟨scopes, hfits, hlocals, hbody⟩ := fits_routine hscoped hstrategy hlocks hroutine
  have hmoves := moves_of_infer hresolve hinfer hstrategy
  have hcopies : ((algorithm.copiedGlobals settings.locking).map (·.name)).Nodup := by
    cases settings.locking with
    | inProcess => exact List.nodup_nil
    | coordinated => exact hscoped.nodup_globals
  have hhead : ∀ entry ∈ headBlock routine.params, entry.2.isCopy = false := by
    intro entry hentry
    rcases List.mem_append.1 hentry with hentry | hentry
    · obtain ⟨declaration, hdeclaration⟩ := mem_sourceBlock (List.mem_reverse.1 hentry)
      rw [hdeclaration]
      rfl
    · rw [List.mem_singleton.1 hentry]
      rfl
  obtain ⟨imports, after, hlowered⟩ := hnames.lowered
  have hensures := FunctionContext.ensures_function hmoves hfits hcopies hhead hlocals hbody
  exact (hensures _ code after ⟨rfl, rfl, fun _ hgroup => by cases hgroup⟩ hlowered).2

/-- If names are kept apart, those around the code of a routine belong to what they stand for. -/
private theorem only_blocks {locking : LockingMode} {routine : Routine}
    (hfunctions : ∀ function ∈ program.functions, function.name ∈ algorithm.functionNames) :
    (algorithm.blocks program locking routine).Only fun entry =>
      entry.2.Belongs (algorithm.sourceNames locking routine)
        ((algorithm.copiedGlobals locking).map (·.name)) algorithm.functionNames entry.1 := by
  have hsource {entries : List (String × Uid)}
      (hentries : ∀ entry ∈ entries, entry.1 ∈ algorithm.sourceNames locking routine) :
      ∀ entry ∈ sourceBlock entries, entry.2.Belongs (algorithm.sourceNames locking routine)
        ((algorithm.copiedGlobals locking).map (·.name)) algorithm.functionNames entry.1 := by
    intro entry hentry
    obtain ⟨found, hfound, rfl⟩ := List.mem_map.1 hentry
    exact hentries found hfound
  refine List.forall_mem_cons.2 ⟨?_, List.forall_mem_singleton.2 ?_⟩
  · refine List.forall_mem_append.2 ⟨fun entry hentry => ?_, List.forall_mem_singleton.2 rfl⟩
    refine hsource (fun found hfound => ?_) entry (List.mem_reverse.1 hentry)
    obtain ⟨param, hparam, rfl⟩ := List.mem_map.1 hfound
    exact List.mem_append_right _ (List.mem_map_of_mem (List.mem_append_left _ hparam))
  · refine List.forall_mem_append.2 ⟨List.forall_mem_append.2 ⟨hsource fun entry hentry =>
      List.mem_append_left _ (List.mem_map_of_mem hentry), ?_⟩, List.forall_mem_append.2 ⟨?_, ?_⟩⟩
    · intro entry hentry
      obtain ⟨name, hname, rfl⟩ := List.mem_map.1 hentry
      rcases List.mem_append.1 hname with hname | hname
      · obtain ⟨function, hfunction, rfl⟩ := List.mem_map.1 hname
        exact hfunctions function hfunction
      · exact List.mem_append_right _ hname
    · rintro ⟨name, declared⟩ hentry
      rcases mem_locks hentry with ⟨rfl, rfl⟩ | ⟨rfl, rfl⟩ <;> exact .inr (by decide)
    · rintro ⟨name, declared⟩ hentry
      obtain ⟨hname, rfl⟩ := mem_imported hentry
      change Internal name
      fin_cases hname <;> decide

/-- Every function of a program can be read with its names. An identifier of the algorithm denotes
the variable of the declaration that it refers to, unless the back end declares the name for
something else further in or beside it. A name that the back end puts in denotes what it is put in
for, unless a rival is declared there; for a name of its own that is a name the author of the
algorithm has chosen. If the author keeps names apart, all of them denote what they stand for. -/
theorem toGo_names (hresolve : algorithm.resolve = .ok definitions)
    (hinfer : algorithm.inferAtomicity definitions = .ok atomicity)
    (hgo : algorithm.toGo definitions atomicity.groups settings = .ok program) :
    ∃ strategy, Strategy.ofMode settings.locking atomicity.groups definitions = .ok strategy ∧
      ∀ function ∈ program.functions, ∃ routine ∈ algorithm.routines, ∃ code,
        (algorithm.context definitions atomicity.groups settings.locking strategy).Names routine
          function code ∧
        NamedCode.Hosted definitions strategy
          (algorithm.blocks program settings.locking routine) code ∧
        (algorithm.KeepsApart settings.locking → NamedCode.Denotes definitions strategy
          (algorithm.blocks program settings.locking routine) code) := by
  obtain ⟨strategy, hstrategy, hlocks, hfunctions⟩ := toGo_routines hgo
  refine ⟨strategy, hstrategy, fun function hfunction => ?_⟩
  obtain ⟨routine, hroutine, code, hnames⟩ := hfunctions function hfunction
  have hhosted := hosted_of_names hresolve hinfer hstrategy hlocks hroutine hnames
  refine ⟨routine, hroutine, code, hnames, hhosted, fun hapart => ?_⟩
  refine hhosted.denotes (hapart routine hroutine) (only_blocks fun other hother => ?_) ?_
  · obtain ⟨found, hfound, _, hfoundNames⟩ := hfunctions other hother
    rw [hfoundNames.name]
    exact List.mem_append_left _ (List.mem_map_of_mem hfound)
  · obtain ⟨imports, after, hlowered⟩ := hnames.lowered
    refine makes_nameFunction definitions (fun decl hdecl => List.mem_map_of_mem hdecl) ?_ _ code
      after hlowered
    intro decl hdecl
    exact List.mem_append_right _ (List.mem_map_of_mem (List.mem_append_right _ hdecl))

end Algorithm

/-! ## A store that is captured

Under a state service the step `a` writes the global `x` and ends in a block that binds a variable.
The store of the section stands in that block, so what it stores is the variable if that has the
name of the global. -/

section Storing

variable (bound : String)

private def storingProcess : Process :=
  let mark (number : UInt32) : Mark := ⟨⟨number⟩, .unknown⟩
  ⟨⟨3⟩, "P", ⟨4⟩, .single (.number ⟨5⟩ 1), [],
    [.labeled (mark 10) ⟨⟨11⟩, "a"⟩
      [.assign (mark 12) [⟨.identifier ⟨13⟩ "x", .number ⟨14⟩ 2⟩],
        .withDo (mark 15) [⟨⟨16⟩, bound, some (.number ⟨17⟩ 1), .plain, .unknown⟩]
          [.goto (mark 18) "Done"]]]⟩

private def storing : Algorithm :=
  ⟨"T", [], [⟨⟨1⟩, "x", none, .plain, .unknown⟩], [], [storingProcess bound]⟩

private def storingDefinitions : Definitions :=
  ⟨[⟨⟨1⟩, "x", .global .plain, .unknown⟩, ⟨⟨4⟩, "self", .processSelf, .unknown⟩,
    ⟨⟨16⟩, bound, .bound, .unknown⟩], [(⟨13⟩, ⟨1⟩)]⟩

private def storingAtomicity : Atomicity :=
  ⟨⟨[(⟨11⟩, ⟨0⟩)], [], [(⟨0⟩, ⟨1⟩)]⟩, ⟨"T", [⟨⟨0⟩, ["P.a"], [], ["x"]⟩], []⟩, []⟩

private def storingSettings : Settings := { Settings.default with locking := .coordinated }

private def storingStrategy : Strategy := .coordinated [(⟨0⟩, ⟨["x"], ["x"]⟩)]

private def storingFunction : Function :=
  let call (action : SectionAction) : Code SectionCall := .leaf ⟨storingStrategy, action, ⟨0⟩⟩
  ⟨"P", [], ⟨[.line "var x int", .line "_ = x", .label "a", call .acquire, .line "x = 2",
    .block [.line (bound ++ " := " ++ "1"), .line ("_ = " ++ bound), call .release,
      .line "return"]], []⟩⟩

private def storingProgram : Program :=
  ⟨"T", "main", .none, [], .service ⟨["127.0.0.1:2379"], 3, [("x", "0")]⟩, [storingFunction bound],
    [.single "P" "1"]⟩

private def storingCode : List NamedCode :=
  [.declare [.text "var x int"] "x" (.copy "x"), blankLine "x" (.copy "x"), .label "a",
    namedLockCall "Lock" "0", namedLoad "x",
    .line [.identifier ⟨13⟩ "x", .text " = ", .text "2"],
    .block [.declare [.text (bound ++ " := "), .text "1"] bound (.source ⟨16⟩),
      blankLine bound (.source ⟨16⟩), namedStore "x", namedLockCall "Unlock" "0",
      .line [.text "return"]]]

private theorem storing_resolve :
    (storing bound).resolve = .ok (storingDefinitions bound) := by
  cbv

private theorem storing_infer :
    (storing bound).inferAtomicity (storingDefinitions bound) = .ok storingAtomicity := by
  cbv

private theorem storing_ofMode : Strategy.ofMode storingSettings.locking storingAtomicity.groups
    (storingDefinitions bound) = .ok storingStrategy := by
  cbv

private theorem storing_toGo :
    (storing bound).toGo (storingDefinitions bound) storingAtomicity.groups storingSettings =
      .ok (storingProgram bound) := by
  cbv

private def storingContext : FunctionContext :=
  (storing bound).context (storingDefinitions bound) storingAtomicity.groups
    storingSettings.locking storingStrategy

private theorem ok_of_map {α β : Type} {result : Except Diagnostic (α × β)} {value : α}
    (h : result.map Prod.fst = .ok value) : ∃ after, result = .ok (value, after) := by
  cases result with
  | error message => cases h
  | ok found =>
    obtain rfl := Except.ok.inj h
    exact ⟨found.2, rfl⟩

private theorem storing_lowered (imports : Imports) : ∃ after,
    nameFunction (storingDefinitions bound) (storingContext bound).copies
      (storingProcess bound).locals (storingProcess bound).body
      ((storingContext bound).start imports (storingProcess bound).uid) =
        .ok (storingCode bound, after) := by
  apply ok_of_map
  cbv

private def storingBlocks : Blocks :=
  (storing bound).blocks (storingProgram bound) storingSettings.locking
    (storingProcess bound).routine

theorem Algorithm.toGo_names_storing :
    (storing "y").toGo (storingDefinitions "y") storingAtomicity.groups storingSettings =
        .ok (storingProgram "y") ∧
      (storing "y").KeepsApart storingSettings.locking ∧
      NamedCode.Denotes (storingDefinitions "y") storingStrategy (storingBlocks "y")
        (storingCode "y") := by
  have hapart : (storing "y").KeepsApart storingSettings.locking := by decide
  refine ⟨storing_toGo "y", hapart, ?_⟩
  obtain ⟨strategy, hstrategy, hfunctions⟩ :=
    Algorithm.toGo_names (storing_resolve "y") (storing_infer "y") (storing_toGo "y")
  cases Except.ok.inj (hstrategy.symm.trans (storing_ofMode "y"))
  obtain ⟨routine, hroutine, code, hnames, _, hdenotes⟩ := hfunctions _ List.mem_cons_self
  cases List.mem_singleton.1 hroutine
  obtain ⟨imports, after, hlowered⟩ := hnames.lowered
  obtain ⟨other, hother⟩ := storing_lowered "y" imports
  have hsame : code = storingCode "y" :=
    congrArg Prod.fst (Except.ok.inj (hlowered.symm.trans hother))
  exact hsame ▸ hdenotes hapart

private theorem storing_names : (storingContext "x").Names (storingProcess "x").routine
    (storingFunction "x") (storingCode "x") :=
  ⟨rfl, rfl, ⟨.none, storing_lowered "x" .none⟩, rfl⟩

/-- A store in the block of a binding with the name of the global stores the binding. -/
theorem Algorithm.store_captured :
    (storing "x").resolve = .ok (storingDefinitions "x") ∧
      (storing "x").inferAtomicity (storingDefinitions "x") = .ok storingAtomicity ∧
      (storing "x").toGo (storingDefinitions "x") storingAtomicity.groups storingSettings =
        .ok (storingProgram "x") ∧
      storingFunction "x" ∈ (storingProgram "x").functions ∧
      (storingContext "x").Names (storingProcess "x").routine (storingFunction "x")
        (storingCode "x") ∧
      ∃ use ∈ NamedCode.listUses (storingBlocks "x") (storingCode "x"),
        use.1 = .own "x" (.copy "x") ∧ use.2.lookup "x" = some (.source ⟨16⟩) := by
  refine ⟨storing_resolve "x", storing_infer "x", storing_toGo "x", List.mem_cons_self,
    storing_names, ?_⟩
  decide

end Storing

end PlusCalGo
