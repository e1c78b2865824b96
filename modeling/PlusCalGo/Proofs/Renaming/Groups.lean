import PlusCalGo.Proofs.Locking.Acceptance
import PlusCalGo.Proofs.Renaming.Accesses

/-!
# Lock groups of renamed algorithms

Labels conflict as before, so the same ones are joined, in whatever order that is done. Roots are
the least of their trees and therefore the same, and so are the numbers of the groups, the report up
to the order of names, and the warnings.
-/

namespace PlusCalGo

/-! ## Trees -/

namespace Forest

/-- The root of a tree is the least number in it, whichever way the tree was grown. -/
theorem climbs_of_joined {forest other : Forest} (hforest : forest.Descends)
    (hother : other.Descends) (h : ∀ a b, forest.Joined a b ↔ other.Joined a b) {node root : Nat}
    (hclimbs : forest.Climbs node root) : other.Climbs node root := by
  obtain ⟨top, htop⟩ := exists_climbs hother node
  have hle : root ≤ top := by
    obtain ⟨common, hnode, hcommon⟩ := (h node top).2 ⟨top, htop, .root htop.isRoot⟩
    rw [hclimbs.unique hnode]
    exact hcommon.le hforest
  have hge : top ≤ root := by
    obtain ⟨common, hnode, hcommon⟩ := (h node root).1 ⟨root, hclimbs, .root hclimbs.isRoot⟩
    rw [htop.unique hnode]
    exact hcommon.le hother
  rw [Nat.le_antisymm hle hge]
  exact htop

end Forest

section Joining

variable {r : Renaming} {labels : List LabelAccesses}

theorem LabelAccesses.touched_rename (accesses : LabelAccesses) (isWrite : Bool) :
    (accesses.rename r).touched isWrite = (accesses.touched isWrite).rename r := by
  cases isWrite <;> rfl

theorem touchedAt_rename {index : Nat} {isWrite : Bool} {global : Uid} :
    TouchedAt (labels.map (LabelAccesses.rename r)) index isWrite global ↔
      ∃ old, TouchedAt labels index isWrite old ∧ r old = global := by
  simp only [TouchedAt, List.getElem?_map, Option.map_eq_some_iff]
  constructor
  · rintro ⟨_, ⟨accesses, hlabel, rfl⟩, hglobal⟩
    rw [LabelAccesses.touched_rename, UidSet.mem_rename] at hglobal
    obtain ⟨old, hold, hsame⟩ := hglobal
    exact ⟨old, ⟨accesses, hlabel, hold⟩, hsame⟩
  · rintro ⟨old, ⟨accesses, hlabel, hold⟩, hsame⟩
    refine ⟨accesses.rename r, ⟨accesses, hlabel, rfl⟩, ?_⟩
    rw [LabelAccesses.touched_rename, UidSet.mem_rename]
    exact ⟨old, hold, hsame⟩

variable (hr : Function.Injective r)
include hr

theorem conflicting_rename :
    Conflicting (TouchedAt (labels.map (LabelAccesses.rename r))) =
      Conflicting (TouchedAt labels) := by
  have hboth {m n : Nat} {isWrite other : Bool} {global : Uid} :
      (TouchedAt (labels.map (LabelAccesses.rename r)) m isWrite global ∧
        TouchedAt (labels.map (LabelAccesses.rename r)) n other global) ↔
      ∃ old, (TouchedAt labels m isWrite old ∧ TouchedAt labels n other old) ∧ r old = global := by
    simp only [touchedAt_rename]
    constructor
    · rintro ⟨⟨old, hm, rfl⟩, other, hn, hsame⟩
      rw [hr hsame] at hn
      exact ⟨old, ⟨hm, hn⟩, rfl⟩
    · rintro ⟨old, ⟨hm, hn⟩, hsame⟩
      exact ⟨⟨old, hm, hsame⟩, old, hn, hsame⟩
  funext m n
  apply propext
  simp only [Conflicting, hboth]
  constructor
  · rintro ⟨isWrite, _, ⟨old, h, rfl⟩ | ⟨old, h, rfl⟩⟩
    · exact ⟨isWrite, old, .inl h⟩
    · exact ⟨isWrite, old, .inr h⟩
  · rintro ⟨isWrite, old, h | h⟩
    · exact ⟨isWrite, r old, .inl ⟨old, h, rfl⟩⟩
    · exact ⟨isWrite, r old, .inr ⟨old, h, rfl⟩⟩

omit hr in
/-- Labels get the same numbers in two forests with the same roots. -/
theorem numberLabels_rename {forest other : Forest} (hforest : forest.Descends)
    (hother : other.Descends)
    (h : ∀ node root, forest.Climbs node root ↔ other.Climbs node root) (roots : List Nat)
    (index : Nat) (labels : List LabelAccesses) :
    numberLabels other roots index (labels.map (LabelAccesses.rename r)) =
      (numberLabels forest roots index labels).map
        fun (accesses, group) => (accesses.rename r, group) := by
  induction labels generalizing forest other roots index with
  | nil => rfl
  | cons accesses rest ih =>
    simp only [List.map_cons, numberLabels, LabelAccesses.touchesGlobals_rename]
    split
    · rcases hfind : forest.find index with ⟨next, root⟩
      rcases hotherFind : other.find index with ⟨otherNext, otherRoot⟩
      obtain ⟨hclimbs, hnext⟩ := Forest.find_spec hforest hfind
      obtain ⟨hotherClimbs, hotherNext⟩ := Forest.find_spec hother hotherFind
      have hroot : otherRoot = root := hotherClimbs.unique ((h index root).1 hclimbs)
      have hafter : ∀ node root, next.Climbs node root ↔ otherNext.Climbs node root := by
        intro node root
        rw [hnext.climbs_iff hforest, hotherNext.climbs_iff hother, h]
      subst hroot
      rw [List.map_cons, ih hnext.1 hotherNext.1 hafter]
    · exact ih hforest hother h roots (index + 1)

theorem lockGroupsOf_rename (labels : List LabelAccesses) :
    lockGroupsOf (labels.map (LabelAccesses.rename r)) =
      (lockGroupsOf labels).map fun (accesses, group) => (accesses.rename r, group) := by
  obtain ⟨hforest, hjoined⟩ := Conflicts.joined_ofLabels labels
  obtain ⟨hother, hotherJoined⟩ :=
    Conflicts.joined_ofLabels (labels.map (LabelAccesses.rename r))
  have hsame : ∀ m n, (Conflicts.ofLabels labels).forest.Joined m n ↔
      (Conflicts.ofLabels (labels.map (LabelAccesses.rename r))).forest.Joined m n := by
    intro m n
    rw [hjoined, hotherJoined, Chained, Chained, conflicting_rename hr]
  apply numberLabels_rename hforest hother
  intro node root
  exact ⟨Forest.climbs_of_joined hforest hother hsame,
    Forest.climbs_of_joined hother hforest fun a b => (hsame a b).symm⟩

end Joining

/-! ## Registries -/

namespace LockGroups

/-- The same labels are in the same groups, and these use the same variables. -/
structure Matches (r : Renaming) (groups other : LockGroups) : Prop where
  labels : other.labels = groups.labels.map fun (label, group) => (r label, group)
  reads : ∀ group, other.readsOf group = (groups.readsOf group).rename r
  writes : ∀ group, other.writesOf group = (groups.writesOf group).rename r

variable {r : Renaming} {groups other after : LockGroups}

theorem Matches.groupOf? (h : groups.Matches r other) (hr : Function.Injective r) (label : Uid) :
    other.groupOf? (r label) = groups.groupOf? label := by
  have hsame : (fun entry : Uid × LockGroup => decide (entry.1 = r label)) ∘
      (fun entry : Uid × LockGroup => (r entry.1, entry.2)) =
        fun entry => decide (entry.1 = label) := by
    funext entry
    simp [hr.eq_iff]
  rw [LockGroups.groupOf?, h.labels, List.find?_map, hsame, Option.map_map, LockGroups.groupOf?]
  rfl

theorem Matches.count (h : groups.Matches r other) : other.count = groups.count := by
  rw [LockGroups.count, h.labels, List.foldl_map, LockGroups.count]

/-- Registered groups use the renamed variables. -/
theorem mem_entries_rename {entries : List (LabelAccesses × LockGroup)} (isWrite : Bool)
    {group : LockGroup} {uid : Uid} :
    (group, uid) ∈ (entries.map fun entry => (entry.1.rename r, entry.2)).flatMap (fun entry =>
        (entry.1.touched isWrite).toList.map (entry.2, ·)) ↔
      ∃ old, (group, old) ∈ entries.flatMap (fun entry =>
        (entry.1.touched isWrite).toList.map (entry.2, ·)) ∧ r old = uid := by
  simp only [List.flatMap_map, List.mem_flatMap, List.mem_map, Prod.mk.injEq,
    LabelAccesses.touched_rename]
  constructor
  · rintro ⟨entry, hentry, renamed, hrenamed, rfl, rfl⟩
    obtain ⟨old, hold, hsame⟩ := UidSet.mem_rename.1 hrenamed
    exact ⟨old, ⟨entry, hentry, old, hold, rfl, rfl⟩, hsame⟩
  · rintro ⟨old, ⟨entry, hentry, _, hold, rfl, rfl⟩, rfl⟩
    exact ⟨entry, hentry, _, UidSet.mem_rename.2 ⟨_, hold, rfl⟩, rfl, rfl⟩

theorem partition_rename (hr : Function.Injective r) {labels : List LabelAccesses}
    (h : empty.partition labels = (groups, none))
    (hother : empty.partition (labels.map (LabelAccesses.rename r)) = (other, none)) :
    groups.Matches r other := by
  obtain ⟨hlabels, hreads, hwrites⟩ := registerAll_ok h
  obtain ⟨hotherLabels, hotherReads, hotherWrites⟩ := registerAll_ok hother
  rw [lockGroupsOf_rename hr] at hotherLabels hotherReads hotherWrites
  refine ⟨?_, fun group => UidSet.ext fun uid => ?_, fun group => UidSet.ext fun uid => ?_⟩
  · rw [hlabels, hotherLabels]
    simp [empty, LabelAccesses.rename]
  · rw [mem_readsOf, hotherReads, UidSet.mem_rename]
    simp only [mem_readsOf, hreads, empty, List.nil_append]
    exact mem_entries_rename false
  · rw [mem_writesOf, hotherWrites, UidSet.mem_rename]
    simp only [mem_writesOf, hwrites, empty, List.nil_append]
    exact mem_entries_rename true

end LockGroups

/-! ## The report -/

/-- An entry for the same group and labels, with the names perhaps in another order. -/
structure LockGroupReport.Matches (report other : LockGroupReport) : Prop where
  group : other.group = report.group
  labels : other.labels = report.labels
  reads : report.reads.Perm other.reads
  writes : report.writes.Perm other.writes

structure AtomicityReport.Matches (report other : AtomicityReport) : Prop where
  algorithm : other.algorithm = report.algorithm
  groups : List.Forall₂ LockGroupReport.Matches report.groups other.groups
  unprotected : other.unprotected = report.unprotected

namespace AtomicityReport

section Names

variable {r : Renaming} {definitions : Definitions} {uids : List Uid} {names : List String}

theorem namesOf_rename (hr : Function.Injective r) (definitions : Definitions)
    (uids : List Uid) :
    namesOf (definitions.rename r) (uids.map r) = r.result id (namesOf definitions uids) := by
  induction uids with
  | nil => rfl
  | cons uid rest ih =>
    refine Renaming.bind (definitions.definition_rename hr uid) fun definition => ?_
    exact Renaming.bind ih fun names => rfl

theorem namesOf_perm {others : List Uid} (hperm : uids.Perm others)
    (h : namesOf definitions uids = .ok names) :
    ∃ otherNames, namesOf definitions others = .ok otherNames ∧ names.Perm otherNames := by
  induction hperm generalizing names with
  | nil => exact ⟨names, h, .refl names⟩
  | cons uid _ ih =>
    obtain ⟨definition, hdefinition, h⟩ := ok_of_bind h
    obtain ⟨rest, hrest, h⟩ := ok_of_bind h
    cases h
    obtain ⟨otherRest, hother, hsame⟩ := ih hrest
    refine ⟨definition.name :: otherRest, ?_, hsame.cons _⟩
    rw [namesOf, hdefinition, hother]
    rfl
  | swap first second rest =>
    obtain ⟨definition, hdefinition, h⟩ := ok_of_bind h
    obtain ⟨names, hnames, h⟩ := ok_of_bind h
    cases h
    obtain ⟨next, hnext, hnames⟩ := ok_of_bind hnames
    obtain ⟨others, hothers, hnames⟩ := ok_of_bind hnames
    cases hnames
    refine ⟨next.name :: definition.name :: others, ?_, .swap _ _ _⟩
    rw [namesOf, namesOf, hdefinition, hnext, hothers]
    rfl
  | trans _ _ ihfirst ihsecond =>
    obtain ⟨between, hbetween, hfirst⟩ := ihfirst h
    obtain ⟨otherNames, hother, hsecond⟩ := ihsecond hbetween
    exact ⟨otherNames, hother, hfirst.trans hsecond⟩

/-- The names of a set are found again, in the order of the new uids. -/
theorem namesOf_renameSet (hr : Function.Injective r) {set : UidSet}
    (h : namesOf definitions set.toList = .ok names) :
    ∃ otherNames, namesOf (definitions.rename r) (set.rename r).toList = .ok otherNames ∧
      names.Perm otherNames := by
  have hrenamed := namesOf_rename hr definitions set.toList
  rw [h] at hrenamed
  exact namesOf_perm (set.toList_rename_perm hr).symm hrenamed

end Names

section Labels

variable {r : Renaming} {definitions : Definitions} {groups otherGroups : LockGroups}
  {report other after : AtomicityReport}

theorem forall₂_set {α β : Type} {relation : α → β → Prop} {xs : List α} {ys : List β}
    (h : List.Forall₂ relation xs ys) {x : α} {y : β} (hsame : relation x y) (index : Nat) :
    List.Forall₂ relation (xs.set index x) (ys.set index y) := by
  induction h generalizing index with
  | nil => exact .nil
  | cons hfirst hrest ih =>
    cases index with
    | zero => exact .cons hsame hrest
    | succ index => exact .cons hfirst (ih index)

variable (hr : Function.Injective r) (hgroups : groups.Matches r otherGroups)
include hr hgroups

theorem addLabel_rename {accesses : LabelAccesses} (hreport : report.Matches other)
    (h : addLabel definitions groups report accesses = .ok after) :
    ∃ otherAfter, addLabel (definitions.rename r) otherGroups other (accesses.rename r) =
        .ok otherAfter ∧ after.Matches otherAfter := by
  have hgroupOf := hgroups.groupOf? hr accesses.label
  have hlength := hreport.groups.length_eq
  obtain ⟨hgroup, rfl⟩ | ⟨group, reads, writes, hgroup, hnext, hreads, hwrites, rfl⟩ |
    ⟨group, entry, hgroup, hentry, rfl⟩ := addLabel_ok h
  · rw [hgroup] at hgroupOf
    refine ⟨_, addLabel_unprotected hgroupOf, hreport.algorithm, hreport.groups, ?_⟩
    rw [hreport.unprotected]
    rfl
  · rw [hgroup] at hgroupOf
    rw [hlength] at hnext
    obtain ⟨otherReads, hotherReads, hsameReads⟩ := namesOf_renameSet hr hreads
    obtain ⟨otherWrites, hotherWrites, hsameWrites⟩ := namesOf_renameSet hr hwrites
    rw [← hgroups.reads] at hotherReads
    rw [← hgroups.writes] at hotherWrites
    refine ⟨_, addLabel_next hgroupOf hnext hotherReads hotherWrites, hreport.algorithm, ?_,
      hreport.unprotected⟩
    exact List.rel_append hreport.groups (.cons ⟨rfl, rfl, hsameReads, hsameWrites⟩ .nil)
  · rw [hgroup] at hgroupOf
    obtain ⟨hlt, rfl⟩ := List.getElem?_eq_some_iff.1 hentry
    have hotherLt := hlt
    rw [hlength] at hotherLt
    have hmatches := hreport.groups.get hlt hotherLt
    have hafter : LockGroupReport.Matches
        { report.groups[group.index] with
          labels := report.groups[group.index].labels ++ [accesses.name] }
        { other.groups[group.index] with
          labels := other.groups[group.index].labels ++ [accesses.name] } :=
      ⟨hmatches.group, congrArg (· ++ [accesses.name]) hmatches.labels, hmatches.reads,
        hmatches.writes⟩
    exact ⟨_, addLabel_again hgroupOf (List.getElem?_eq_getElem hotherLt), hreport.algorithm,
      forall₂_set hreport.groups hafter _, hreport.unprotected⟩

theorem addLabels_rename (labels : List LabelAccesses) (hreport : report.Matches other)
    (h : addLabels definitions groups report labels = .ok after) :
    ∃ otherAfter, addLabels (definitions.rename r) otherGroups other
        (labels.map (LabelAccesses.rename r)) = .ok otherAfter ∧ after.Matches otherAfter := by
  induction labels generalizing report other with
  | nil =>
    cases h
    exact ⟨other, rfl, hreport⟩
  | cons accesses rest ih =>
    obtain ⟨between, hfirst, hrest⟩ := ok_of_bind h
    obtain ⟨otherBetween, hotherFirst, hbetween⟩ := addLabel_rename hr hgroups hreport hfirst
    obtain ⟨otherAfter, hother, hafter⟩ := ih hbetween hrest
    exact ⟨otherAfter, by rw [List.map_cons, addLabels, hotherFirst]; exact hother, hafter⟩

end Labels

end AtomicityReport

theorem Warning.unused_rename {r : Renaming} (hr : Function.Injective r)
    (definitions : Definitions) (labels : List LabelAccesses) :
    Warning.unused (definitions.rename r) (labels.map (LabelAccesses.rename r)) =
      Warning.unused definitions labels := by
  have hmem (set : UidSet) (uid : Uid) :
      r uid ∈ (set.rename r).toList ↔ uid ∈ set.toList := by
    constructor
    · intro hmem
      obtain ⟨old, hold, hsame⟩ := UidSet.mem_rename.1 hmem
      rw [← hr hsame]
      exact hold
    · intro hmem
      exact UidSet.mem_rename.2 ⟨uid, hmem, rfl⟩
  rw [unused, definitions.globals_rename, List.filter_map, List.map_map, unused]
  congr 1
  apply List.filter_congr
  intro definition _
  simp [Function.comp_def, Definition.rename, LabelAccesses.rename, hmem]

/-! ## Inference -/

/-- What is inferred of a renamed algorithm. -/
structure Atomicity.Matches (r : Renaming) (atomicity other : Atomicity) : Prop where
  groups : atomicity.groups.Matches r other.groups
  report : atomicity.report.Matches other.report
  warnings : other.warnings = atomicity.warnings

/-- After resolution the same lock groups are found, or the same statement stands outside of all
labels. -/
theorem Algorithm.inferAtomicity_rename {r : Renaming} (hr : Function.Injective r)
    {algorithm : Algorithm} {definitions : Definitions}
    (hresolve : algorithm.resolve = .ok definitions) :
    match algorithm.inferAtomicity definitions with
    | .ok atomicity => ∃ other,
        (algorithm.rename r).inferAtomicity (definitions.rename r) = .ok other ∧
          atomicity.Matches r other
    | .error problem => (algorithm.rename r).inferAtomicity (definitions.rename r) =
        .error (problem.rename r) := by
  have hotherResolve := resolve_rename hr algorithm
  rw [hresolve] at hotherResolve
  have hrecord := LabelAccesses.recordBodies_rename hr definitions algorithm.bodies []
  rw [← bodies_rename, List.map_nil] at hrecord
  cases hlabels : LabelAccesses.recordBodies definitions [] algorithm.bodies with
  | error problem =>
    rw [hlabels] at hrecord
    rw [inferAtomicity, hlabels, inferAtomicity, hrecord]
    rfl
  | ok labels =>
    rw [hlabels] at hrecord
    obtain ⟨atomicity, hinfer⟩ := inferAtomicity_of_recorded hresolve hlabels
    obtain ⟨other, hother⟩ := inferAtomicity_of_recorded hotherResolve hrecord
    rw [hinfer]
    refine ⟨other, hother, ?_⟩
    obtain ⟨same, hsame, hpartition, hreport, hwarnings⟩ := inferAtomicity_ok hinfer
    obtain ⟨otherSame, hotherSame, hotherPartition, hotherReport, hotherWarnings⟩ :=
      inferAtomicity_ok hother
    cases hlabels.symm.trans hsame
    cases hrecord.symm.trans hotherSame
    have hgroups := LockGroups.partition_rename hr hpartition hotherPartition
    have hstart : AtomicityReport.Matches ⟨algorithm.name, [], []⟩
        ⟨(algorithm.rename r).name, [], []⟩ := ⟨rfl, .nil, rfl⟩
    obtain ⟨report, hfound, hmatches⟩ :=
      AtomicityReport.addLabels_rename hr hgroups labels hstart hreport
    cases hfound.symm.trans hotherReport
    refine ⟨hgroups, hmatches, ?_⟩
    rw [hotherWarnings, Warning.unused_rename hr, hwarnings]

end PlusCalGo
