import PlusCalGo.Go.Program

/-!
# Functions of a program

Every function of a generated program is made from a process or procedure of the algorithm, all of
them in one context.
-/

namespace PlusCalGo

/-- What a function is made from. -/
structure Source where
  name : String
  owner : Uid
  locals : List VariableDecl
  body : List Statement

def Procedure.source (procedure : Procedure) : Source :=
  ⟨procedure.name, procedure.uid, procedure.locals, procedure.body⟩

def Process.source (process : Process) : Source :=
  ⟨process.name, process.uid, process.locals, process.body⟩

def Algorithm.sources (algorithm : Algorithm) : List Source :=
  algorithm.procedures.map Procedure.source ++ algorithm.processes.map Process.source

namespace Go

/-- The function is made from the source. -/
def FunctionContext.Makes (context : FunctionContext) (source : Source) (function : Function) :
    Prop :=
  ∃ imports needed,
    context.body imports source.owner source.locals source.body = .ok (function.body, needed)

/-- The functions are made from the sources, one from each, and named after them. -/
structure FunctionContext.MakesAll (context : FunctionContext) (sources : List Source)
    (functions : List Function) : Prop where
  made : ∀ function ∈ functions, ∃ source ∈ sources,
    function.name = source.name ∧ context.Makes source function
  makes : ∀ source ∈ sources, ∃ function ∈ functions,
    function.name = source.name ∧ context.Makes source function

section MakesAll

variable {context : FunctionContext} {imports needed : Imports}

namespace FunctionContext

theorem MakesAll.nil : context.MakesAll [] [] := ⟨List.forall_mem_nil _, List.forall_mem_nil _⟩

theorem MakesAll.append {first second : List Source} {front back : List Function}
    (hfirst : context.MakesAll first front) (hsecond : context.MakesAll second back) :
    context.MakesAll (first ++ second) (front ++ back) where
  made := by
    intro function hfunction
    rcases List.mem_append.1 hfunction with hfunction | hfunction
    · obtain ⟨source, hsource, hmakes⟩ := hfirst.made function hfunction
      exact ⟨source, List.mem_append_left second hsource, hmakes⟩
    · obtain ⟨source, hsource, hmakes⟩ := hsecond.made function hfunction
      exact ⟨source, List.mem_append_right first hsource, hmakes⟩
  makes := by
    intro source hsource
    rcases List.mem_append.1 hsource with hsource | hsource
    · obtain ⟨function, hfunction, hmakes⟩ := hfirst.makes source hsource
      exact ⟨function, List.mem_append_left back hfunction, hmakes⟩
    · obtain ⟨function, hfunction, hmakes⟩ := hsecond.makes source hsource
      exact ⟨function, List.mem_append_right front hfunction, hmakes⟩

theorem MakesAll.one {source : Source} {function : Function}
    (hname : function.name = source.name) (h : context.Makes source function) :
    context.MakesAll [source] [function] :=
  ⟨List.forall_mem_singleton.2 ⟨source, List.mem_cons_self, hname, h⟩,
    List.forall_mem_singleton.2 ⟨function, List.mem_cons_self, hname, h⟩⟩

end FunctionContext

private theorem procedures_make {procedures : List Procedure} {functions : List Function}
    (h : context.procedures imports procedures = .ok (functions, needed)) :
    context.MakesAll (procedures.map Procedure.source) functions := by
  induction procedures generalizing imports functions with
  | nil =>
    cases h
    exact .nil
  | cons procedure rest ih =>
    obtain ⟨⟨body, between⟩, hbody, h⟩ := ok_of_bind h
    obtain ⟨⟨others, last⟩, hrest, h⟩ := ok_of_bind h
    cases h
    exact (FunctionContext.MakesAll.one rfl ⟨imports, between, hbody⟩).append (ih hrest)

private theorem processes_make {processes : List Process} {functions : List Function}
    (h : context.processes imports processes = .ok (functions, needed)) :
    context.MakesAll (processes.map Process.source) functions := by
  induction processes generalizing imports functions with
  | nil =>
    cases h
    exact .nil
  | cons process rest ih =>
    obtain ⟨⟨body, between⟩, hbody, h⟩ := ok_of_bind h
    obtain ⟨⟨others, last⟩, hrest, h⟩ := ok_of_bind h
    cases h
    exact (FunctionContext.MakesAll.one rfl ⟨imports, between, hbody⟩).append (ih hrest)

end MakesAll

end Go

open Go

namespace Algorithm

/-- The context of the functions of a program. -/
def context (algorithm : Algorithm) (definitions : Definitions) (groups : LockGroups)
    (locking : LockingMode) (strategy : Strategy) : FunctionContext :=
  ⟨definitions, groups, strategy, algorithm.copiedGlobals locking⟩

variable {algorithm : Algorithm} {definitions : Definitions} {groups : LockGroups}
  {settings : Settings} {program : Program}

/-- The functions of a program are made from all sources, in one context. -/
theorem toGo_makesAll (h : algorithm.toGo definitions groups settings = .ok program) :
    ∃ strategy, Strategy.ofMode settings.locking groups definitions = .ok strategy ∧
      (algorithm.context definitions groups settings.locking strategy).MakesAll algorithm.sources
        program.functions := by
  obtain ⟨strategy, hstrategy, h⟩ := ok_of_bind h
  obtain ⟨procedures, hprocedures, h⟩ := ok_of_bind h
  obtain ⟨processes, hprocesses, h⟩ := ok_of_bind h
  obtain ⟨constants, _, h⟩ := ok_of_bind h
  obtain ⟨globals, _, h⟩ := ok_of_bind h
  obtain ⟨locks, _, h⟩ := ok_of_bind h
  obtain ⟨launches, _, h⟩ := ok_of_bind h
  cases h
  exact ⟨strategy, hstrategy, (procedures_make hprocedures).append (processes_make hprocesses)⟩

/-- What a program is made of besides its functions. -/
theorem toGo_parts (h : algorithm.toGo definitions groups settings = .ok program) :
    ∃ constants globals, algorithm.constants.mapM (constantOf definitions) = .ok constants ∧
      (algorithm.packageGlobals settings.locking).mapM (declarationOf definitions) = .ok globals ∧
      program.declarations = constants ++ globals ∧
      algorithm.lockHome definitions groups settings = .ok program.locks ∧
      algorithm.processes.mapM (launchOf definitions) = .ok program.launches := by
  obtain ⟨strategy, _, h⟩ := ok_of_bind h
  obtain ⟨procedures, _, h⟩ := ok_of_bind h
  obtain ⟨processes, _, h⟩ := ok_of_bind h
  obtain ⟨constants, hconstants, h⟩ := ok_of_bind h
  obtain ⟨globals, hglobals, h⟩ := ok_of_bind h
  obtain ⟨locks, hlocks, h⟩ := ok_of_bind h
  obtain ⟨launches, hlaunches, h⟩ := ok_of_bind h
  cases h
  exact ⟨constants, globals, hconstants, hglobals, rfl, hlocks, hlaunches⟩

/-- All functions of a program are made in one context, under the lock groups of the program. -/
theorem toGo_makes (h : algorithm.toGo definitions groups settings = .ok program) :
    ∃ context : FunctionContext, context.definitions = definitions ∧ context.groups = groups ∧
      ∀ function ∈ program.functions, ∃ source ∈ algorithm.sources,
        context.Makes source function := by
  obtain ⟨strategy, _, hall⟩ := toGo_makesAll h
  refine ⟨algorithm.context definitions groups settings.locking strategy, rfl, rfl, ?_⟩
  intro function hfunction
  obtain ⟨source, hsource, _, hmakes⟩ := hall.made function hfunction
  exact ⟨source, hsource, hmakes⟩

end Algorithm

end PlusCalGo
