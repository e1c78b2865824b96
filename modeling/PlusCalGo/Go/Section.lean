import PlusCalGo.Definition
import PlusCalGo.Go.Code
import PlusCalGo.Locking.Registry

/-!
# Critical sections

How a lock group is acquired and released in Go: by a mutex of the running program, or by a state
service that also holds the global variables. Only code is made here; which sections are open is
tracked elsewhere.
-/

namespace PlusCalGo.Go

/-- The Go name of the array of mutexes. -/
def lockArray : String := "pgoLocks"

/-- The Go name of the client of the state service. -/
def globalState : String := "pgoGlobalState"

/-- The choice between the two ways of locking. -/
inductive LockingMode where
  | inProcess
  | coordinated
deriving DecidableEq, Inhabited

/-- The names of the globals a section loads when it opens and stores when it closes. -/
structure SharedGlobals where
  loads : List String
  stores : List String
deriving DecidableEq

/-- A way of locking with all it needs: the service moves the globals of each lock group. -/
inductive Strategy where
  | inProcess
  | coordinated (shared : List (LockGroup × SharedGlobals))

inductive SectionAction where
  | acquire
  | release
  /-- Gives the lock back without storing anything. -/
  | abort
deriving DecidableEq

/-- An action on a lock group, to be written out by a strategy. -/
structure SectionCall where
  strategy : Strategy
  action : SectionAction
  group : LockGroup

/-- The record lists the names of what the group uses, and of what it writes. -/
def SharedGlobals.Lists (shared : SharedGlobals) (groups : LockGroups)
    (definitions : Definitions) (group : LockGroup) : Prop :=
  ((groups.readsOf group).union (groups.writesOf group)).toList.map definitions.nameOf =
      shared.loads.map .ok ∧
    (groups.writesOf group).toList.map definitions.nameOf = shared.stores.map .ok

namespace Strategy

/-- The globals of a group, if the strategy moves globals and has a record for the group. -/
def sharedGlobals? (group : LockGroup) : Strategy → Option SharedGlobals
  | inProcess => none
  | coordinated shared => (shared.find? (·.1 = group)).map (·.2)

private def namesOfGlobals (definitions : Definitions) : List Uid → Except Diagnostic (List String)
  | [] => .ok []
  | uid :: rest => do
    let definition ← definitions.definition uid
    pure (definition.name :: (← namesOfGlobals definitions rest))

private def sharedOf (groups : LockGroups) (definitions : Definitions) :
    List Nat → Except Diagnostic (List (LockGroup × SharedGlobals))
  | [] => .ok []
  | index :: rest => do
    let group : LockGroup := ⟨index⟩
    let reads := groups.readsOf group
    let writes := groups.writesOf group
    let loads ← namesOfGlobals definitions (reads.union writes).toList
    let stores ← namesOfGlobals definitions writes.toList
    pure ((group, ⟨loads, stores⟩) :: (← sharedOf groups definitions rest))

/-- The service stores integers alone, so all globals must be plain. -/
def checkPlain : List Definition → Except Diagnostic Unit
  | [] => .ok ()
  | definition :: rest =>
    if definition.resource ≠ .plain then
      .error (.located (.unsharedResource definition.name definition.resource) definition.location)
    else checkPlain rest

/-- The strategy of a mode for the lock groups of an algorithm. -/
def ofMode (mode : LockingMode) (groups : LockGroups) (definitions : Definitions) :
    Except Diagnostic Strategy :=
  match mode with
  | .inProcess => .ok .inProcess
  | .coordinated => do
    checkPlain definitions.globals
    pure (.coordinated (← sharedOf groups definitions (List.range groups.count)))

section Ok

variable {groups : LockGroups} {definitions : Definitions}

theorem checkPlain_ok {globals : List Definition}
    (h : ∀ definition ∈ globals, definition.resource = .plain) : checkPlain globals = .ok () := by
  induction globals with
  | nil => rfl
  | cons definition rest ih =>
    obtain ⟨hplain, hrest⟩ := List.forall_mem_cons.1 h
    rw [checkPlain, if_neg (not_not_intro hplain), ih hrest]

private theorem namesOfGlobals_ok {uids : List Uid}
    (h : ∀ uid ∈ uids, ∃ definition, definitions.definition uid = .ok definition) :
    ∃ names, namesOfGlobals definitions uids = .ok names := by
  induction uids with
  | nil => exact ⟨_, rfl⟩
  | cons uid rest ih =>
    obtain ⟨⟨definition, hdefinition⟩, hothers⟩ := List.forall_mem_cons.1 h
    obtain ⟨names, hnames⟩ := ih hothers
    exact ⟨_, by rw [namesOfGlobals, hdefinition, hnames]; rfl⟩

private theorem sharedOf_ok (hnames : ∀ group uid,
      uid ∈ groups.readsOf group ∨ uid ∈ groups.writesOf group →
        ∃ definition, definitions.definition uid = .ok definition) (indices : List Nat) :
    ∃ shared, sharedOf groups definitions indices = .ok shared := by
  induction indices with
  | nil => exact ⟨_, rfl⟩
  | cons index rest ih =>
    obtain ⟨loads, hloads⟩ := namesOfGlobals_ok fun uid hmem =>
      hnames ⟨index⟩ uid (UidSet.mem_union.1 hmem)
    obtain ⟨stores, hstores⟩ := namesOfGlobals_ok fun uid hmem => hnames ⟨index⟩ uid (.inr hmem)
    obtain ⟨others, hothers⟩ := ih
    exact ⟨_, by rw [sharedOf, hloads, hstores, hothers]; rfl⟩

/-- There is a strategy if the variables of all groups have definitions, and if all globals are
plain where the service has to store them. -/
theorem ofMode_ok {mode : LockingMode}
    (hplain : mode = .coordinated → ∀ definition ∈ definitions.globals,
      definition.resource = .plain)
    (hnames : ∀ group uid, uid ∈ groups.readsOf group ∨ uid ∈ groups.writesOf group →
      ∃ definition, definitions.definition uid = .ok definition) :
    ∃ strategy, ofMode mode groups definitions = .ok strategy := by
  cases mode with
  | inProcess => exact ⟨_, rfl⟩
  | coordinated =>
    obtain ⟨shared, hshared⟩ := sharedOf_ok hnames (List.range groups.count)
    exact ⟨_, by rw [ofMode, checkPlain_ok (hplain rfl), hshared]; rfl⟩

end Ok

section Shared

variable {groups : LockGroups} {definitions : Definitions}

private theorem namesOfGlobals_named {uids : List Uid} {names : List String}
    (h : namesOfGlobals definitions uids = .ok names) : ∀ name ∈ names, ∃ uid ∈ uids,
      ∃ definition, definitions.definition uid = .ok definition ∧ definition.name = name := by
  induction uids generalizing names with
  | nil =>
    cases h
    exact List.forall_mem_nil _
  | cons uid rest ih =>
    obtain ⟨definition, hdefinition, h⟩ := ok_of_bind h
    obtain ⟨others, hothers, h⟩ := ok_of_bind h
    cases h
    refine List.forall_mem_cons.2 ⟨⟨uid, List.mem_cons_self, definition, hdefinition, rfl⟩, ?_⟩
    intro name hname
    obtain ⟨other, hother, hnamed⟩ := ih hothers name hname
    exact ⟨other, List.mem_cons_of_mem uid hother, hnamed⟩

private theorem sharedOf_named {indices : List Nat} {shared : List (LockGroup × SharedGlobals)}
    (h : sharedOf groups definitions indices = .ok shared) :
    ∀ entry ∈ shared, ∀ name, name ∈ entry.2.loads ∨ name ∈ entry.2.stores → ∃ uid,
      (uid ∈ groups.readsOf entry.1 ∨ uid ∈ groups.writesOf entry.1) ∧
        ∃ definition, definitions.definition uid = .ok definition ∧ definition.name = name := by
  induction indices generalizing shared with
  | nil =>
    cases h
    exact List.forall_mem_nil _
  | cons index rest ih =>
    obtain ⟨loads, hloads, h⟩ := ok_of_bind h
    obtain ⟨stores, hstores, h⟩ := ok_of_bind h
    obtain ⟨others, hothers, h⟩ := ok_of_bind h
    cases h
    refine List.forall_mem_cons.2 ⟨?_, ih hothers⟩
    rintro name (hname | hname)
    · obtain ⟨uid, huid, hnamed⟩ := namesOfGlobals_named hloads name hname
      exact ⟨uid, UidSet.mem_union.1 huid, hnamed⟩
    · obtain ⟨uid, huid, hnamed⟩ := namesOfGlobals_named hstores name hname
      exact ⟨uid, .inr huid, hnamed⟩

/-- The names of a list of globals are those of their definitions, in order. -/
private theorem namesOfGlobals_eq {uids : List Uid} {names : List String}
    (h : namesOfGlobals definitions uids = .ok names) :
    uids.map definitions.nameOf = names.map .ok := by
  induction uids generalizing names with
  | nil =>
    cases h
    rfl
  | cons uid rest ih =>
    obtain ⟨definition, hdefinition, h⟩ := ok_of_bind h
    obtain ⟨others, hothers, h⟩ := ok_of_bind h
    cases h
    have hname : definitions.nameOf uid = .ok definition.name := by
      rw [Definitions.nameOf, hdefinition]
      rfl
    rw [List.map_cons, List.map_cons, hname, ih hothers]

private theorem find_sharedOf {indices : List Nat} {shared : List (LockGroup × SharedGlobals)}
    (h : sharedOf groups definitions indices = .ok shared) (group : LockGroup) :
    (group.index ∈ indices → ∃ entry, shared.find? (·.1 = group) = some entry ∧
      entry.2.Lists groups definitions group) ∧
    ∀ entry ∈ shared, entry.1.index ∈ indices := by
  induction indices generalizing shared with
  | nil =>
    cases h
    simp
  | cons index rest ih =>
    obtain ⟨loads, hloads, h⟩ := ok_of_bind h
    obtain ⟨stores, hstores, h⟩ := ok_of_bind h
    obtain ⟨others, hothers, h⟩ := ok_of_bind h
    cases h
    obtain ⟨hfind, hindices⟩ := ih hothers
    constructor
    · intro hgroup
      by_cases hfirst : (⟨index⟩ : LockGroup) = group
      · subst hfirst
        exact ⟨(⟨index⟩, ⟨loads, stores⟩), List.find?_cons_of_pos (by simp),
          namesOfGlobals_eq hloads, namesOfGlobals_eq hstores⟩
      · have hother : group.index ≠ index := fun hsame => hfirst (by rw [← hsame])
        obtain ⟨entry, hentry, hlists⟩ := hfind (by simpa [hother] using hgroup)
        exact ⟨entry, by simpa [hfirst] using hentry, hlists⟩
    · intro entry hentry
      rcases List.mem_cons.1 hentry with rfl | hentry
      · exact List.mem_cons_self
      · exact List.mem_cons_of_mem index (hindices entry hentry)

/-- The service has a record for each number of a group, and for no other. -/
theorem sharedGlobals?_of_ofMode {strategy : Strategy}
    (h : ofMode .coordinated groups definitions = .ok strategy) (group : LockGroup) :
    (group.index < groups.count → ∃ shared, strategy.sharedGlobals? group = some shared ∧
      shared.Lists groups definitions group) ∧
    ∀ shared, strategy.sharedGlobals? group = some shared → group.index < groups.count := by
  obtain ⟨_, _, h⟩ := ok_of_bind h
  obtain ⟨entries, hentries, h⟩ := ok_of_bind h
  cases h
  obtain ⟨hfind, hindices⟩ := find_sharedOf hentries group
  constructor
  · intro hlt
    obtain ⟨entry, hentry, hlists⟩ := hfind (List.mem_range.2 hlt)
    exact ⟨entry.2, by rw [sharedGlobals?, hentry, Option.map_some], hlists⟩
  · intro shared hshared
    obtain ⟨entry, hentry, _⟩ := Option.map_eq_some_iff.1 hshared
    have hgroup : entry.1 = group := by simpa using List.find?_some hentry
    rw [← hgroup]
    exact List.mem_range.1 (hindices entry (List.mem_of_find?_eq_some hentry))

/-- The service moves variables that the group reads or writes, by the names of their
definitions. -/
theorem named_of_ofMode {mode : LockingMode} {strategy : Strategy} {group : LockGroup}
    {shared : SharedGlobals} (h : ofMode mode groups definitions = .ok strategy)
    (hshared : strategy.sharedGlobals? group = some shared) {name : String}
    (hname : name ∈ shared.loads ∨ name ∈ shared.stores) :
    mode = .coordinated ∧ ∃ uid, (uid ∈ groups.readsOf group ∨ uid ∈ groups.writesOf group) ∧
      ∃ definition, definitions.definition uid = .ok definition ∧ definition.name = name := by
  cases mode with
  | inProcess =>
    cases h
    cases hshared
  | coordinated =>
    obtain ⟨_, _, h⟩ := ok_of_bind h
    obtain ⟨entries, hentries, h⟩ := ok_of_bind h
    cases h
    obtain ⟨entry, hfind, rfl⟩ := Option.map_eq_some_iff.1 hshared
    have hgroup : entry.1 = group := by simpa using List.find?_some hfind
    refine ⟨rfl, ?_⟩
    rw [← hgroup]
    exact sharedOf_named hentries entry (List.mem_of_find?_eq_some hfind) name hname

end Shared

end Strategy

/-! ## Code of a call -/

/-- A call of the service; a failure stops the program. -/
def checkedCall {κ : Type} (call : String) : Code κ :=
  .branch ("err := " ++ call ++ "; err != nil") [.line "panic(err)"] []

def loadGlobal {κ : Type} (name : String) : Code κ :=
  .branch ("pgoValue, err := " ++ globalState ++ ".GetInt(" ++ Text.quoted name ++
    "); err != nil") [.line "panic(err)"] [.line (name ++ " = pgoValue")]

def storeGlobal {κ : Type} (name : String) : Code κ :=
  checkedCall (globalState ++ ".Set(" ++ Text.quoted name ++ ", " ++ name ++ ")")

/-- The statements a call stands for. -/
def SectionCall.code {κ : Type} (call : SectionCall) : List (Code κ) :=
  let group := call.group.text
  match call.strategy, call.action with
  | .inProcess, .acquire => [.line (lockArray ++ "[" ++ group ++ "].Lock()")]
  | .inProcess, .release | .inProcess, .abort => [.line (lockArray ++ "[" ++ group ++ "].Unlock()")]
  | strategy@(.coordinated _), .acquire =>
    checkedCall (globalState ++ ".Lock(self, " ++ group ++ ")") ::
      match strategy.sharedGlobals? call.group with
      | some shared => shared.loads.map loadGlobal
      | none => []
  | strategy@(.coordinated _), .release =>
    (match strategy.sharedGlobals? call.group with
      | some shared => shared.stores.map storeGlobal
      | none => []) ++ [checkedCall (globalState ++ ".Unlock(self, " ++ group ++ ")")]
  | .coordinated _, .abort => [checkedCall (globalState ++ ".Unlock(self, " ++ group ++ ")")]

/-- Code with the calls of sections left to write out. -/
abbrev SectionCode := Code SectionCall

end PlusCalGo.Go
