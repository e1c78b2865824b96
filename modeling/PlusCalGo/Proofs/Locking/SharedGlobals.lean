import PlusCalGo.Go.Section
import PlusCalGo.Proofs.Locking.Contents
import PlusCalGo.Proofs.Locking.Groups
import PlusCalGo.Proofs.Resolution.Exactness
import PlusCalGo.Proofs.Resolution.Sight

/-!
# Globals that sections move

Under the coordinated strategy the section of a group loads the globals that labels of the group
touch and stores those that they write. A global that one group stores is moved by no other group,
so no group can overwrite or miss what another one has stored.
-/

namespace PlusCalGo

open Go

namespace Algorithm

variable {algorithm : Algorithm} {definitions : Definitions} {atomicity : Atomicity}

/-! ## Names of globals -/

theorem nodup_definitions (h : algorithm.resolve = .ok definitions) :
    (definitions.toList.map (·.uid)).Nodup :=
  (gains_of_resolve h).nodup List.nodup_nil

theorem globals_eq (h : algorithm.resolve = .ok definitions) :
    definitions.globals =
      algorithm.globals.map fun decl => (decl.declaration .global).definition := by
  have htoList : definitions.toList = algorithm.declarations := (gains_of_resolve h).toList
  rw [Definitions.globals, htoList, filter_declarations]

/-- A global is registered under its own name. -/
theorem nameOf_global (h : algorithm.resolve = .ok definitions) {decl : VariableDecl}
    (hdecl : decl ∈ algorithm.globals) : definitions.nameOf decl.uid = .ok decl.name := by
  have hmem : (decl.declaration .global).definition ∈ definitions.globals := by
    rw [globals_eq h]
    exact List.mem_map_of_mem hdecl
  have hfound : definitions.definition decl.uid = .ok (decl.declaration .global).definition := by
    apply (Definitions.definition_eq_ok (nodup_definitions h)).2
    exact ⟨(List.mem_filter.1 hmem).1, rfl⟩
  rw [Definitions.nameOf, hfound]
  rfl

/-- What groups use are globals of the algorithm. -/
theorem decl_of_uses (hresolve : algorithm.resolve = .ok definitions)
    (hinfer : algorithm.inferAtomicity definitions = .ok atomicity) {group : LockGroup}
    {global : Uid} (huses : atomicity.groups.Uses group global) :
    ∃ decl ∈ algorithm.globals, decl.uid = global := by
  obtain ⟨definition, hfind, hglobal⟩ := global_of_uses hresolve hinfer huses
  have hmem : definition ∈ definitions.globals :=
    List.mem_filter.2 ⟨List.mem_of_find?_eq_some hfind, hglobal⟩
  rw [globals_eq hresolve] at hmem
  obtain ⟨decl, hdecl, rfl⟩ := List.mem_map.1 hmem
  have huid : (decl.declaration .global).definition.uid = global := by
    simpa using List.find?_some hfind
  exact ⟨decl, hdecl, huid⟩

/-- Globals with one name are one global. -/
theorem eq_of_nameOf (h : algorithm.resolve = .ok definitions) {decl other : VariableDecl}
    (hdecl : decl ∈ algorithm.globals) (hother : other ∈ algorithm.globals)
    (hname : definitions.nameOf decl.uid = definitions.nameOf other.uid) : decl = other := by
  rw [nameOf_global h hdecl, nameOf_global h hother] at hname
  have hnodup : (algorithm.globals.map (·.name)).Nodup := (scoped_of_resolve h).nodup_globals
  exact List.inj_on_of_nodup_map hnodup hdecl hother (Except.ok.inj hname)

/-! ## Lists of names -/

section Lists

variable {uids : List Uid} {names : List String}

/-- Different globals have different names. -/
theorem nodup_names (h : algorithm.resolve = .ok definitions) (hnodup : uids.Nodup)
    (hglobal : ∀ uid ∈ uids, ∃ decl ∈ algorithm.globals, decl.uid = uid)
    (hnames : uids.map definitions.nameOf = names.map .ok) : names.Nodup := by
  have hmapped : (uids.map definitions.nameOf).Nodup := by
    apply List.Nodup.map_on _ hnodup
    intro first hfirst second hsecond hsame
    obtain ⟨decl, hdecl, rfl⟩ := hglobal first hfirst
    obtain ⟨other, hother, rfl⟩ := hglobal second hsecond
    rw [eq_of_nameOf h hdecl hother hsame]
  rw [hnames] at hmapped
  exact hmapped.of_map _

/-- The list has the name of a global exactly if it was made from the global. -/
theorem mem_names (h : algorithm.resolve = .ok definitions)
    (hglobal : ∀ uid ∈ uids, ∃ decl ∈ algorithm.globals, decl.uid = uid)
    (hnames : uids.map definitions.nameOf = names.map .ok) {name : String} :
    name ∈ names ↔ ∃ decl ∈ algorithm.globals, decl.name = name ∧ decl.uid ∈ uids := by
  have hmem : name ∈ names ↔
      (.ok name : Except Diagnostic String) ∈ uids.map definitions.nameOf := by
    rw [hnames, List.mem_map_of_injective fun _ _ => Except.ok.inj]
  rw [hmem, List.mem_map]
  constructor
  · intro hfound
    obtain ⟨uid, huid, hname⟩ := hfound
    obtain ⟨decl, hdecl, rfl⟩ := hglobal uid huid
    rw [nameOf_global h hdecl] at hname
    exact ⟨decl, hdecl, Except.ok.inj hname, huid⟩
  · intro hfound
    obtain ⟨decl, hdecl, rfl, huid⟩ := hfound
    exact ⟨decl.uid, huid, nameOf_global h hdecl⟩

end Lists

/-! ## Groups -/

/-- Some label of the group writes, or reads, the global. -/
def TouchedIn (algorithm : Algorithm) (groups : LockGroups) (group : LockGroup) (isWrite : Bool)
    (global : Uid) : Prop :=
  ∃ label, groups.groupOf? label = some group ∧ algorithm.Touches label isWrite global

/-- A group reads and writes what its labels do, and what one group writes no other one uses. -/
theorem groups_of_inferAtomicity (hresolve : algorithm.resolve = .ok definitions)
    (hinfer : algorithm.inferAtomicity definitions = .ok atomicity) :
    (∀ group global, global ∈ atomicity.groups.readsOf group ↔
      algorithm.TouchedIn atomicity.groups group false global) ∧
    (∀ group global, global ∈ atomicity.groups.writesOf group ↔
      algorithm.TouchedIn atomicity.groups group true global) ∧
    ∀ group other global, global ∈ atomicity.groups.writesOf group →
      global ∈ atomicity.groups.readsOf other ∨ global ∈ atomicity.groups.writesOf other →
        group = other := by
  obtain ⟨labels, hnodup, hpartition, htouches⟩ := partition_of_inferAtomicity hresolve hinfer
  simp only [TouchedIn, ← htouches]
  refine ⟨?_, ?_, ?_⟩
  · intro group global
    rw [LockGroups.mem_readsOf_partition hnodup hpartition]
    constructor
    · rintro ⟨accesses, hmem, hgroup, hread⟩
      exact ⟨accesses.label, hgroup, accesses, hmem, rfl, hread⟩
    · rintro ⟨_, hgroup, accesses, hmem, rfl, hread⟩
      exact ⟨accesses, hmem, hgroup, hread⟩
  · intro group global
    rw [LockGroups.mem_writesOf_partition hnodup hpartition]
    constructor
    · rintro ⟨accesses, hmem, hgroup, hwrite⟩
      exact ⟨accesses.label, hgroup, accesses, hmem, rfl, hwrite⟩
    · rintro ⟨_, hgroup, accesses, hmem, rfl, hwrite⟩
      exact ⟨accesses, hmem, hgroup, hwrite⟩
  · intro group other global hwrite huses
    obtain ⟨accesses, hmem, _, hwritten⟩ :=
      (LockGroups.mem_writesOf_partition hnodup hpartition).1 hwrite
    have hunique := LockGroups.existsUnique_of_written hnodup hpartition hmem hwritten
    exact hunique.unique (.inr hwrite) huses

/-! ## Records -/

/-- The coordinated strategy exists where all globals are plain. -/
theorem coordinated_of_plain (hresolve : algorithm.resolve = .ok definitions)
    (hinfer : algorithm.inferAtomicity definitions = .ok atomicity)
    (hplain : ∀ decl ∈ algorithm.globals, decl.resource = .plain) :
    ∃ strategy, Strategy.ofMode .coordinated atomicity.groups definitions = .ok strategy := by
  apply Strategy.ofMode_ok
  · intro _ definition hdefinition
    rw [globals_eq hresolve] at hdefinition
    obtain ⟨decl, hdecl, rfl⟩ := List.mem_map.1 hdefinition
    exact hplain decl hdecl
  · intro group uid huses
    rw [LockGroups.mem_readsOf, LockGroups.mem_writesOf] at huses
    exact definition_of_uses hresolve hinfer huses

section Records

variable {strategy : Strategy} {group : LockGroup} {shared : SharedGlobals}
  (hresolve : algorithm.resolve = .ok definitions)
  (hinfer : algorithm.inferAtomicity definitions = .ok atomicity)
  (hstrategy : Strategy.ofMode .coordinated atomicity.groups definitions = .ok strategy)

include hstrategy

theorem isSome_sharedGlobals? (group : LockGroup) :
    (strategy.sharedGlobals? group).isSome ↔ group.index < atomicity.groups.count := by
  have hrecord := Strategy.sharedGlobals?_of_ofMode hstrategy group
  rw [Option.isSome_iff_exists]
  constructor
  · rintro ⟨shared, hshared⟩
    exact hrecord.2 shared hshared
  · intro hcount
    obtain ⟨shared, hshared, _⟩ := hrecord.1 hcount
    exact ⟨shared, hshared⟩

theorem lists_of_sharedGlobals? (hshared : strategy.sharedGlobals? group = some shared) :
    shared.Lists atomicity.groups definitions group := by
  have hrecord := Strategy.sharedGlobals?_of_ofMode hstrategy group
  obtain ⟨found, hfound, hlists⟩ := hrecord.1 (hrecord.2 shared hshared)
  rw [hshared] at hfound
  cases hfound
  exact hlists

include hresolve hinfer

/-- Loaded are the globals that labels of the group touch. -/
theorem loads_of_sharedGlobals? (hshared : strategy.sharedGlobals? group = some shared) :
    shared.loads.Nodup ∧ ∀ name, name ∈ shared.loads ↔
      ∃ decl ∈ algorithm.globals, decl.name = name ∧
        ∃ isWrite, algorithm.TouchedIn atomicity.groups group isWrite decl.uid := by
  obtain ⟨hreads, hwrites, _⟩ := groups_of_inferAtomicity hresolve hinfer
  have hlists := (lists_of_sharedGlobals? hstrategy hshared).1
  have hglobal : ∀ uid ∈ ((atomicity.groups.readsOf group).union
      (atomicity.groups.writesOf group)).toList, ∃ decl ∈ algorithm.globals, decl.uid = uid := by
    intro uid huid
    have huses := UidSet.mem_union.1 huid
    rw [LockGroups.mem_readsOf, LockGroups.mem_writesOf] at huses
    exact decl_of_uses hresolve hinfer huses
  have hmem (uid : Uid) : uid ∈ ((atomicity.groups.readsOf group).union
      (atomicity.groups.writesOf group)).toList ↔
        ∃ isWrite, algorithm.TouchedIn atomicity.groups group isWrite uid := by
    rw [Bool.exists_bool, ← hreads, ← hwrites]
    exact UidSet.mem_union
  refine ⟨nodup_names hresolve (UidSet.nodup_toList _) hglobal hlists, ?_⟩
  intro name
  simp only [mem_names hresolve hglobal hlists, hmem]

/-- Stored are the globals that labels of the group write. -/
theorem stores_of_sharedGlobals? (hshared : strategy.sharedGlobals? group = some shared) :
    shared.stores.Nodup ∧ ∀ name, name ∈ shared.stores ↔
      ∃ decl ∈ algorithm.globals, decl.name = name ∧
        algorithm.TouchedIn atomicity.groups group true decl.uid := by
  obtain ⟨_, hwrites, _⟩ := groups_of_inferAtomicity hresolve hinfer
  have hlists := (lists_of_sharedGlobals? hstrategy hshared).2
  have hglobal : ∀ uid ∈ (atomicity.groups.writesOf group).toList,
      ∃ decl ∈ algorithm.globals, decl.uid = uid := by
    intro uid huid
    exact decl_of_uses hresolve hinfer (.inr (LockGroups.mem_writesOf.1 huid))
  have hmem (uid : Uid) : uid ∈ (atomicity.groups.writesOf group).toList ↔
      algorithm.TouchedIn atomicity.groups group true uid := hwrites group uid
  refine ⟨nodup_names hresolve (UidSet.nodup_toList _) hglobal hlists, ?_⟩
  intro name
  simp only [mem_names hresolve hglobal hlists, hmem]

/-- What one group stores no other one moves. -/
theorem eq_of_stored {other : LockGroup} {otherShared : SharedGlobals}
    (hshared : strategy.sharedGlobals? group = some shared)
    (hother : strategy.sharedGlobals? other = some otherShared) {name : String}
    (hname : name ∈ shared.stores) (hmoved : name ∈ otherShared.loads ∨ name ∈ otherShared.stores) :
    group = other := by
  obtain ⟨hreads, hwrites, hunique⟩ := groups_of_inferAtomicity hresolve hinfer
  have hnodup : (algorithm.globals.map (·.name)).Nodup :=
    (scoped_of_resolve hresolve).nodup_globals
  have hstores := (stores_of_sharedGlobals? hresolve hinfer hstrategy hshared).2
  obtain ⟨decl, hdecl, rfl, hwritten⟩ := (hstores name).1 hname
  -- A name tells its global, so the other group touches the one that is stored.
  have htouched : ∃ isWrite, algorithm.TouchedIn atomicity.groups other isWrite decl.uid := by
    rcases hmoved with hload | hstore
    · have hloads := (loads_of_sharedGlobals? hresolve hinfer hstrategy hother).2
      obtain ⟨moved, hmoved, hsame, htouched⟩ := (hloads decl.name).1 hload
      rwa [List.inj_on_of_nodup_map hnodup hmoved hdecl hsame] at htouched
    · have hstores := (stores_of_sharedGlobals? hresolve hinfer hstrategy hother).2
      obtain ⟨moved, hmoved, hsame, htouched⟩ := (hstores decl.name).1 hstore
      rw [List.inj_on_of_nodup_map hnodup hmoved hdecl hsame] at htouched
      exact ⟨true, htouched⟩
  rw [Bool.exists_bool, ← hreads, ← hwrites] at htouched
  exact hunique group other decl.uid ((hwrites group decl.uid).2 hwritten) htouched

end Records

/-- If all globals are plain, there is a coordinated strategy. It has a record for each group: the
names of the globals that labels of the group touch are loaded and the names of those that they
write are stored, each once. No two globals have one name, and what one group stores is neither
loaded nor stored by another one. -/
theorem sharedGlobals_exact (hresolve : algorithm.resolve = .ok definitions)
    (hinfer : algorithm.inferAtomicity definitions = .ok atomicity)
    (hplain : ∀ decl ∈ algorithm.globals, decl.resource = .plain) :
    ∃ strategy, Strategy.ofMode .coordinated atomicity.groups definitions = .ok strategy ∧
      (algorithm.globals.map (·.name)).Nodup ∧
      (∀ group, (strategy.sharedGlobals? group).isSome ↔ group.index < atomicity.groups.count) ∧
      (∀ group shared, strategy.sharedGlobals? group = some shared →
        (shared.loads.Nodup ∧ ∀ name, name ∈ shared.loads ↔
          ∃ decl ∈ algorithm.globals, decl.name = name ∧
            ∃ isWrite, algorithm.TouchedIn atomicity.groups group isWrite decl.uid) ∧
        shared.stores.Nodup ∧ ∀ name, name ∈ shared.stores ↔
          ∃ decl ∈ algorithm.globals, decl.name = name ∧
            algorithm.TouchedIn atomicity.groups group true decl.uid) ∧
      ∀ group other shared otherShared, strategy.sharedGlobals? group = some shared →
        strategy.sharedGlobals? other = some otherShared → ∀ name ∈ shared.stores,
          name ∈ otherShared.loads ∨ name ∈ otherShared.stores → group = other := by
  obtain ⟨strategy, hstrategy⟩ := coordinated_of_plain hresolve hinfer hplain
  have hnodup : (algorithm.globals.map (·.name)).Nodup :=
    (scoped_of_resolve hresolve).nodup_globals
  refine ⟨strategy, hstrategy, hnodup, isSome_sharedGlobals? hstrategy, ?_, ?_⟩
  · intro group shared hshared
    exact ⟨loads_of_sharedGlobals? hresolve hinfer hstrategy hshared,
      stores_of_sharedGlobals? hresolve hinfer hstrategy hshared⟩
  · intro group other shared otherShared hshared hother name hname hmoved
    exact eq_of_stored hresolve hinfer hstrategy hshared hother hname hmoved

/-! ## A global that is only read

Two groups load the global `limit`, which no label writes. Each of them stores a global of its
own. -/

private def limited : Algorithm :=
  let mark (number : UInt32) : Mark := ⟨⟨number⟩, .unknown⟩
  let global (number : UInt32) (name : String) : VariableDecl :=
    ⟨⟨number⟩, name, none, .plain, .unknown⟩
  ⟨"T", [], [global 1 "limit", global 2 "x", global 3 "y"], [],
    [⟨⟨4⟩, "P", ⟨5⟩, .single (.number ⟨6⟩ 1), [],
      [.labeled (mark 10) ⟨⟨11⟩, "a"⟩
          [.assign (mark 12) [⟨.identifier ⟨13⟩ "x", .identifier ⟨14⟩ "limit"⟩]],
        .labeled (mark 20) ⟨⟨21⟩, "b"⟩
          [.assign (mark 22) [⟨.identifier ⟨23⟩ "y", .binary ⟨24⟩ .add (.identifier ⟨25⟩ "y")
            (.identifier ⟨26⟩ "limit")⟩]]]⟩]⟩

private def limitedDefinitions : Definitions :=
  ⟨[⟨⟨1⟩, "limit", .global .plain, .unknown⟩, ⟨⟨2⟩, "x", .global .plain, .unknown⟩,
      ⟨⟨3⟩, "y", .global .plain, .unknown⟩, ⟨⟨5⟩, "self", .processSelf, .unknown⟩],
    [(⟨26⟩, ⟨1⟩), (⟨25⟩, ⟨3⟩), (⟨23⟩, ⟨3⟩), (⟨14⟩, ⟨1⟩), (⟨13⟩, ⟨2⟩)]⟩

private def limitedAtomicity : Atomicity :=
  ⟨⟨[(⟨11⟩, ⟨0⟩), (⟨21⟩, ⟨1⟩)], [(⟨0⟩, ⟨1⟩), (⟨1⟩, ⟨1⟩), (⟨1⟩, ⟨3⟩)], [(⟨0⟩, ⟨2⟩), (⟨1⟩, ⟨3⟩)]⟩,
    ⟨"T", [⟨⟨0⟩, ["P.a"], ["limit"], ["x"]⟩, ⟨⟨1⟩, ["P.b"], ["limit", "y"], ["y"]⟩], []⟩, []⟩

theorem sharedGlobals_exact_limited :
    limited.resolve = .ok limitedDefinitions ∧
      limited.inferAtomicity limitedDefinitions = .ok limitedAtomicity ∧
      (∀ decl ∈ limited.globals, decl.resource = .plain) ∧
      ∃ strategy, Strategy.ofMode .coordinated limitedAtomicity.groups limitedDefinitions =
          .ok strategy ∧
        strategy.sharedGlobals? ⟨0⟩ = some ⟨["limit", "x"], ["x"]⟩ ∧
        strategy.sharedGlobals? ⟨1⟩ = some ⟨["limit", "y"], ["y"]⟩ ∧
        limited.TouchedIn limitedAtomicity.groups ⟨1⟩ true ⟨3⟩ := by
  have hresolve : limited.resolve = .ok limitedDefinitions := by cbv
  have hinfer : limited.inferAtomicity limitedDefinitions = .ok limitedAtomicity := by cbv
  have hplain : ∀ decl ∈ limited.globals, decl.resource = .plain := by decide
  obtain ⟨strategy, hstrategy, _, _, hrecords, _⟩ := sharedGlobals_exact hresolve hinfer hplain
  have hcomputed : Strategy.ofMode .coordinated limitedAtomicity.groups limitedDefinitions =
      .ok (.coordinated [(⟨0⟩, ⟨["limit", "x"], ["x"]⟩), (⟨1⟩, ⟨["limit", "y"], ["y"]⟩)]) := by cbv
  rw [hcomputed] at hstrategy
  cases hstrategy
  refine ⟨hresolve, hinfer, hplain, _, hcomputed, rfl, rfl, ?_⟩
  have hstored := (hrecords ⟨1⟩ ⟨["limit", "y"], ["y"]⟩ rfl).2.2 "y"
  obtain ⟨decl, hdecl, hname, htouched⟩ := hstored.1 List.mem_cons_self
  have huid : decl.uid = ⟨3⟩ := by
    revert hdecl hname
    simp only [limited, List.mem_cons, List.not_mem_nil, or_false]
    rintro (rfl | rfl | rfl) hname
    · simp at hname
    · simp at hname
    · rfl
  rwa [huid] at htouched

end Algorithm

end PlusCalGo
