import PlusCalGo.Proofs.Locking.Acceptance
import PlusCalGo.Proofs.Locking.Numbers
import PlusCalGo.Proofs.Locking.SharedGlobals
import PlusCalGo.Proofs.Resolution.Labels

/-!
# Reports account for everything

A report lists each label of an algorithm once: in the entry of its group, or with the labels that
run without a lock. The warnings name each global that no group protects, and no other one.
-/

namespace PlusCalGo

/-! ## Labels under their names -/

namespace Statement

/-- The labels under the names that a report gives them in a body. -/
def namedLabels (owner : String) (labels : List Label) : List (Uid × String) :=
  labels.map fun label => (label.uid, owner ++ "." ++ label.name)

private theorem namedLabels_append (owner : String) (first second : List Label) :
    namedLabels owner (first ++ second) = namedLabels owner first ++ namedLabels owner second :=
  List.map_append

mutual

private theorem named_labels (owner : String) (statement : Statement) :
    (statement.labels owner).map (fun accesses => (accesses.label, accesses.name)) =
      namedLabels owner statement.innerLabels := by
  cases statement with
  | labeled mark label body =>
    rw [labels, innerLabels, List.map_cons, named_listLabels owner body]
    rfl
  | whileDo mark condition body => exact named_listLabels owner body
  | ifElse mark condition yes no =>
    rw [labels, innerLabels, List.map_append, namedLabels_append, named_listLabels owner yes,
      named_listLabels owner no]
  | either mark cases => exact named_casesLabels owner cases
  | assign mark pairs => rfl
  | leave mark => rfl
  | skip mark => rfl
  | call mark target arguments => rfl
  | macroCall mark target arguments => rfl
  | withDo mark bindings body => exact named_listLabels owner body
  | print mark value => rfl
  | assert mark value => rfl
  | await mark value => rfl
  | goto mark target => rfl

theorem named_listLabels (owner : String) (statements : List Statement) :
    (listLabels owner statements).map (fun accesses => (accesses.label, accesses.name)) =
      namedLabels owner (listInnerLabels statements) := by
  cases statements with
  | nil => rfl
  | cons statement rest =>
    rw [listLabels, listInnerLabels, List.map_append, namedLabels_append,
      named_labels owner statement, named_listLabels owner rest]

private theorem named_casesLabels (owner : String) (cases : List (List Statement)) :
    (casesLabels owner cases).map (fun accesses => (accesses.label, accesses.name)) =
      namedLabels owner (casesInnerLabels cases) := by
  cases cases with
  | nil => rfl
  | cons body rest =>
    rw [casesLabels, casesInnerLabels, List.map_append, namedLabels_append,
      named_listLabels owner body, named_casesLabels owner rest]

end

end Statement

/-- The labels of an algorithm in program order, those of processes first, under the names that the
report gives them. -/
def Algorithm.namedLabels (algorithm : Algorithm) : List (Uid × String) :=
  algorithm.bodies.flatMap fun body =>
    Statement.namedLabels body.1 (Statement.listInnerLabels body.2)

/-- The names of the labels that have the group, or that have none. -/
def Algorithm.labelNamesOf (algorithm : Algorithm) (groups : LockGroups)
    (group? : Option LockGroup) : List String :=
  (algorithm.namedLabels.filter fun label => groups.groupOf? label.1 = group?).map (·.2)

/-! ## Items by group -/

section ByGroup

variable {α : Type} (group? : α → Option LockGroup) (items : List α)

private theorem perm_below (count : Nat) :
    ((List.range count).flatMap fun number =>
        items.filter fun item => group? item = some ⟨number⟩).Perm
      (items.filter fun item => (group? item).any (·.index < count)) := by
  induction count with
  | zero => simp
  | succ count ih =>
    rw [List.range_succ, List.flatMap_append, List.flatMap_singleton]
    have hsplit := List.filter_append_perm (fun item => (group? item).any (·.index < count))
      (items.filter fun item => (group? item).any (·.index < count + 1))
    rw [List.filter_filter, List.filter_filter] at hsplit
    refine (ih.append_right _).trans ((List.Perm.of_eq ?_).trans hsplit)
    congr 1
    · apply List.filter_congr
      intro item _
      cases group? item with
      | none => rfl
      | some group =>
        rw [Bool.eq_iff_iff]
        simp only [Option.any_some, decide_eq_true_eq, Bool.and_eq_true]
        omega
    · apply List.filter_congr
      intro item _
      cases group? item with
      | none => rfl
      | some group =>
        cases group
        rw [Bool.eq_iff_iff]
        simp only [Option.some.injEq, LockGroup.mk.injEq, Option.any_some, decide_eq_true_eq,
          Bool.and_eq_true, Bool.not_eq_true', decide_eq_false_iff_not]
        omega

/-- If all groups are below the count, each item is found under its group or under none. -/
theorem perm_byGroup {count : Nat}
    (h : ∀ item ∈ items, ∀ group, group? item = some group → group.index < count) :
    (((List.range count).flatMap fun number =>
        items.filter fun item => group? item = some ⟨number⟩) ++
      items.filter fun item => group? item = none).Perm items := by
  refine ((perm_below group? items count).append_right _).trans ?_
  have hsplit := List.filter_append_perm (fun item => (group? item).any (·.index < count)) items
  refine (List.Perm.of_eq ?_).trans hsplit
  congr 1
  apply List.filter_congr
  intro item hitem
  cases hgroup : group? item with
  | none => rfl
  | some group => simp [h item hitem group hgroup]

end ByGroup

/-! ## Entries -/

namespace AtomicityReport

variable {definitions : Definitions} {groups : LockGroups} {labels : List LabelAccesses}
  {report after : AtomicityReport} {accesses : LabelAccesses} {group : LockGroup}
  {group? : Option LockGroup}

theorem namesOf_ok {uids : List Uid} {names : List String}
    (h : namesOf definitions uids = .ok names) :
    uids.map definitions.nameOf = names.map .ok := by
  induction uids generalizing names with
  | nil =>
    cases h
    rfl
  | cons uid rest ih =>
    obtain ⟨definition, hdefinition, h⟩ := ok_of_bind h
    obtain ⟨others, hothers, h⟩ := ok_of_bind h
    cases h
    have hname : definitions.nameOf uid = .ok definition.name := by
      rw [Definitions.nameOf, hdefinition]
      rfl
    rw [List.map_cons, List.map_cons, hname, ih hothers]

/-- The names of the labels that have the group, or that have none. -/
private def namesIn (groups : LockGroups) (labels : List LabelAccesses)
    (group? : Option LockGroup) : List String :=
  (labels.filter fun accesses => groups.groupOf? accesses.label = group?).map (·.name)

private theorem namesIn_append (first second : List LabelAccesses) (group? : Option LockGroup) :
    namesIn groups (first ++ second) group? =
      namesIn groups first group? ++ namesIn groups second group? := by
  rw [namesIn, List.filter_append, List.map_append]
  rfl

private theorem namesIn_singleton (h : groups.groupOf? accesses.label = group?) :
    namesIn groups [accesses] group? = [accesses.name] := by
  simp [namesIn, h]

private theorem namesIn_other (h : groups.groupOf? accesses.label ≠ group?) :
    namesIn groups (labels ++ [accesses]) group? = namesIn groups labels group? := by
  simp [namesIn, h]

/-- The entry is that of the group, with the labels that have it. -/
private structure Tells (definitions : Definitions) (groups : LockGroups)
    (labels : List LabelAccesses) (group : LockGroup) (entry : LockGroupReport) : Prop where
  isFor : entry.group = group
  labels : entry.labels = namesIn groups labels (some group)
  reads : (groups.readsOf group).toList.map definitions.nameOf = entry.reads.map .ok
  writes : (groups.writesOf group).toList.map definitions.nameOf = entry.writes.map .ok

/-- The report holds the labels. -/
private structure Holds (definitions : Definitions) (groups : LockGroups)
    (labels : List LabelAccesses) (report : AtomicityReport) : Prop where
  entries : ∀ number entry, report.groups[number]? = some entry →
    Tells definitions groups labels ⟨number⟩ entry
  grouped : ∀ accesses ∈ labels, ∀ group, groups.groupOf? accesses.label = some group →
    group.index < report.groups.length
  unprotected : report.unprotected = namesIn groups labels none

private theorem Tells.other {entry : LockGroupReport}
    (h : Tells definitions groups labels group entry)
    (hother : groups.groupOf? accesses.label ≠ some group) :
    Tells definitions groups (labels ++ [accesses]) group entry := by
  have hlabels := h.labels
  rw [← namesIn_other hother] at hlabels
  exact { h with labels := hlabels }

/-- A label without a group comes behind the unprotected ones. -/
private theorem Holds.addUnprotected (hreport : Holds definitions groups labels report)
    (hgroup : groups.groupOf? accesses.label = none) :
    Holds definitions groups (labels ++ [accesses])
      { report with unprotected := report.unprotected ++ [accesses.name] } where
  entries number entry hentry := by
    apply (hreport.entries number entry hentry).other
    rw [hgroup]
    exact nofun
  grouped other hother := by
    rcases List.mem_append.1 hother with hother | hother
    · exact hreport.grouped other hother
    · rw [List.mem_singleton.1 hother, hgroup]
      simp
  unprotected := by rw [namesIn_append, namesIn_singleton hgroup, ← hreport.unprotected]

/-- A label that has the next group begins its entry, for no label so far has that group. -/
private theorem Holds.addNext (hreport : Holds definitions groups labels report)
    (hgroup : groups.groupOf? accesses.label = some ⟨report.groups.length⟩)
    {entry : LockGroupReport}
    (hentry : Tells definitions groups [accesses] ⟨report.groups.length⟩ entry) :
    Holds definitions groups (labels ++ [accesses])
      { report with groups := report.groups ++ [entry] } where
  entries number found hfound := by
    have hfresh : namesIn groups labels (some ⟨report.groups.length⟩) = [] := by
      rw [namesIn, List.map_eq_nil_iff, List.filter_eq_nil_iff]
      intro other hother hsame
      exact Nat.lt_irrefl _ (hreport.grouped other hother _ (of_decide_eq_true hsame))
    by_cases hnumber : number < report.groups.length
    · rw [List.getElem?_append_left hnumber] at hfound
      apply (hreport.entries number found hfound).other
      rw [hgroup]
      simp
      omega
    · have hlast : number = report.groups.length := by
        have hbound := (List.getElem?_eq_some_iff.1 hfound).1
        simp at hbound
        omega
      rw [hlast, List.getElem?_concat_length] at hfound
      cases hfound
      rw [hlast]
      refine { hentry with labels := ?_ }
      rw [namesIn_append, hfresh, List.nil_append]
      exact hentry.labels
  grouped other hother otherGroup hotherGroup := by
    rw [List.length_append, List.length_singleton]
    rcases List.mem_append.1 hother with hother | hother
    · exact Nat.lt_succ_of_lt (hreport.grouped other hother otherGroup hotherGroup)
    · rw [List.mem_singleton.1 hother, hgroup] at hotherGroup
      cases hotherGroup
      exact Nat.lt_succ_self _
  unprotected := by
    rw [namesIn_other (by simp [hgroup])]
    exact hreport.unprotected

/-- A label that has an earlier group comes behind the labels of its entry. -/
private theorem Holds.addAgain (hreport : Holds definitions groups labels report) {index : Nat}
    (hgroup : groups.groupOf? accesses.label = some ⟨index⟩) {entry : LockGroupReport}
    (hentry : report.groups[index]? = some entry) :
    Holds definitions groups (labels ++ [accesses])
      { report with
        groups := report.groups.set index
          { entry with labels := entry.labels ++ [accesses.name] } } where
  entries number found hfound := by
    by_cases hnumber : index = number
    · rw [← hnumber, List.getElem?_set_self (List.getElem?_eq_some_iff.1 hentry).1] at hfound
      cases hfound
      have htells := hreport.entries index entry hentry
      rw [← hnumber]
      refine { htells with labels := ?_ }
      rw [namesIn_append, namesIn_singleton hgroup, ← htells.labels]
    · rw [List.getElem?_set_ne hnumber] at hfound
      apply (hreport.entries number found hfound).other
      rw [hgroup]
      simpa using hnumber
  grouped other hother otherGroup hotherGroup := by
    rw [List.length_set]
    rcases List.mem_append.1 hother with hother | hother
    · exact hreport.grouped other hother otherGroup hotherGroup
    · rw [List.mem_singleton.1 hother, hgroup] at hotherGroup
      cases hotherGroup
      exact (List.getElem?_eq_some_iff.1 hentry).1
  unprotected := by
    rw [namesIn_other (by simp [hgroup])]
    exact hreport.unprotected

/-- Adding a label adds it to the ones that the report holds. -/
private theorem Holds.addLabel (hreport : Holds definitions groups labels report)
    (h : addLabel definitions groups report accesses = .ok after) :
    Holds definitions groups (labels ++ [accesses]) after := by
  rcases addLabel_ok h with ⟨hgroup, rfl⟩ |
    ⟨⟨index⟩, reads, writes, hgroup, hnext, hreads, hwrites, rfl⟩ |
    ⟨group, entry, hgroup, hentry, rfl⟩
  · exact hreport.addUnprotected hgroup
  · obtain rfl : index = report.groups.length := hnext
    have hlabels := (namesIn_singleton hgroup).symm
    exact hreport.addNext hgroup ⟨rfl, hlabels, namesOf_ok hreads, namesOf_ok hwrites⟩
  · exact hreport.addAgain hgroup hentry

private theorem Holds.addLabels {rest : List LabelAccesses}
    (hreport : Holds definitions groups labels report)
    (h : addLabels definitions groups report rest = .ok after) :
    Holds definitions groups (labels ++ rest) after := by
  induction rest generalizing labels report with
  | nil =>
    cases h
    rw [List.append_nil]
    exact hreport
  | cons accesses rest ih =>
    obtain ⟨between, hadd, hrest⟩ := ok_of_bind h
    rw [List.append_cons]
    exact ih (hreport.addLabel hadd) hrest

end AtomicityReport

/-! ## Protected globals -/

/-- The groups of a partition protect what some label touches. -/
theorem LockGroups.mem_protectedVariables {labels : List LabelAccesses} {groups : LockGroups}
    (hnodup : (labels.map (·.label)).Nodup) (h : empty.partition labels = (groups, none))
    {global : Uid} :
    global ∈ groups.protectedVariables ↔
      ∃ accesses ∈ labels, global ∈ accesses.reads ∨ global ∈ accesses.writes := by
  have huses : global ∈ groups.protectedVariables ↔ ∃ group, groups.Uses group global := by
    simp [protectedVariables, Uses, exists_or]
  rw [huses]
  constructor
  · rintro ⟨group, hgroup⟩
    obtain ⟨accesses, hmem, isWrite, htouched⟩ := touched_of_partition h hgroup
    refine ⟨accesses, hmem, ?_⟩
    cases isWrite with
    | false => exact .inl htouched
    | true => exact .inr htouched
  · rintro ⟨accesses, hmem, htouched⟩
    have htouches : accesses.touchesGlobals = true := by
      rcases htouched with hread | hwrite
      · exact touchesGlobals_iff.2 ⟨false, global, hread⟩
      · exact touchesGlobals_iff.2 ⟨true, global, hwrite⟩
    obtain ⟨group, hgroup⟩ :=
      Option.isSome_iff_exists.1 ((isSome_groupOf?_partition hnodup h hmem).2 htouches)
    refine ⟨group, ?_⟩
    rw [Uses, ← mem_readsOf, ← mem_writesOf]
    rcases htouched with hread | hwrite
    · exact .inl ((mem_readsOf_partition hnodup h).2 ⟨accesses, hmem, hgroup, hread⟩)
    · exact .inr ((mem_writesOf_partition hnodup h).2 ⟨accesses, hmem, hgroup, hwrite⟩)

/-! ## Inference -/

namespace Algorithm

variable {algorithm : Algorithm} {definitions : Definitions} {atomicity : Atomicity}

open AtomicityReport

/-- A report has an entry for each number below the count. -/
theorem length_report (hinfer : algorithm.inferAtomicity definitions = .ok atomicity) :
    atomicity.report.groups.length = atomicity.groups.count := by
  obtain ⟨labels, _, hpartition, hreport, _⟩ := inferAtomicity_ok hinfer
  obtain ⟨_, hbelow, hreported⟩ := addLabels_numbers hreport
  apply Nat.le_antisymm
  · by_contra hlt
    rcases hreported _ (Nat.lt_of_not_le hlt) with hnone | ⟨accesses, _, hgroup⟩
    · exact Nat.not_lt_zero _ hnone
    · exact Nat.lt_irrefl _ (LockGroups.index_lt_count hgroup)
  · by_contra hlt
    obtain ⟨entry, hentry, hle⟩ := LockGroups.lt_count.1 (Nat.lt_of_not_le hlt)
    obtain ⟨accesses, hmem, hgroup⟩ := LockGroups.mem_of_partition hpartition hentry
    have hindex := hbelow accesses hmem _ hgroup
    omega

/-- Each entry stands in the place of its number and lists the labels of its group, and the others
are listed as unprotected. -/
theorem entries_of_inferAtomicity
    (hinfer : algorithm.inferAtomicity definitions = .ok atomicity) :
    atomicity.report.groups.map (·.group) =
        (List.range atomicity.groups.count).map LockGroup.mk ∧
      (∀ entry ∈ atomicity.report.groups,
        entry.labels = algorithm.labelNamesOf atomicity.groups (some entry.group) ∧
        (atomicity.groups.readsOf entry.group).toList.map definitions.nameOf =
          entry.reads.map .ok ∧
        (atomicity.groups.writesOf entry.group).toList.map definitions.nameOf =
          entry.writes.map .ok) ∧
      atomicity.report.unprotected = algorithm.labelNamesOf atomicity.groups none := by
  obtain ⟨labels, hrecord, _, hreport, _⟩ := inferAtomicity_ok hinfer
  have hstart : Holds definitions atomicity.groups [] ⟨algorithm.name, [], []⟩ :=
    ⟨by simp, by simp, rfl⟩
  have hholds : Holds definitions atomicity.groups labels atomicity.report :=
    hstart.addLabels hreport
  have hnamed : labels.map (fun accesses => (accesses.label, accesses.name)) =
      algorithm.namedLabels := by
    rw [LabelAccesses.map_recordBodies _ hrecord, List.map_nil, List.nil_append, namedLabels]
    · simp only [Statement.named_listLabels]
    · intro accesses isWrite globals
      cases isWrite <;> rfl
  have hnames (group? : Option LockGroup) : namesIn atomicity.groups labels group? =
      algorithm.labelNamesOf atomicity.groups group? := by
    rw [labelNamesOf, ← hnamed, List.filter_map, List.map_map]
    rfl
  refine ⟨?_, ?_, ?_⟩
  · rw [← length_report hinfer]
    apply List.ext_getElem
    · simp
    · intro number hnumber _
      rw [List.getElem_map, List.getElem_map, List.getElem_range]
      exact (hholds.entries number _ (List.getElem?_eq_getElem _)).isFor
  · intro entry hentry
    obtain ⟨number, hnumber⟩ := List.mem_iff_getElem?.1 hentry
    have htells := hholds.entries number entry hnumber
    rw [htells.isFor, ← hnames]
    exact ⟨htells.labels, htells.reads, htells.writes⟩
  · rw [hholds.unprotected, hnames]

/-- Over all lists of the report, each label of the algorithm is listed once. -/
theorem labels_of_inferAtomicity (hinfer : algorithm.inferAtomicity definitions = .ok atomicity) :
    (atomicity.report.groups.flatMap (·.labels) ++ atomicity.report.unprotected).Perm
      (algorithm.namedLabels.map (·.2)) := by
  obtain ⟨hnumbers, hentries, hunprotected⟩ := entries_of_inferAtomicity hinfer
  have hlists : atomicity.report.groups.flatMap (·.labels) =
      (List.range atomicity.groups.count).flatMap fun number =>
        algorithm.labelNamesOf atomicity.groups (some ⟨number⟩) := by
    calc atomicity.report.groups.flatMap (·.labels)
        = atomicity.report.groups.flatMap fun entry =>
            algorithm.labelNamesOf atomicity.groups (some entry.group) :=
          List.flatMap_congr fun entry hentry => (hentries entry hentry).1
      _ = (atomicity.report.groups.map (·.group)).flatMap fun group =>
            algorithm.labelNamesOf atomicity.groups (some group) := by rw [List.flatMap_map]
      _ = _ := by rw [hnumbers, List.flatMap_map]
  have hperm := (perm_byGroup (fun label => atomicity.groups.groupOf? label.1)
    algorithm.namedLabels fun _ _ _ => LockGroups.index_lt_count).map (·.2)
  rw [List.map_append, List.map_flatMap] at hperm
  rw [hlists, hunprotected]
  exact hperm

/-- Warned about are the globals that no group protects, in the order of their declarations. -/
theorem warnings_of_inferAtomicity (hresolve : algorithm.resolve = .ok definitions)
    (hinfer : algorithm.inferAtomicity definitions = .ok atomicity) :
    atomicity.warnings =
      (algorithm.globals.filter (·.uid ∉ atomicity.groups.protectedVariables)).map
        fun decl => ⟨decl.name, decl.location, .empty⟩ := by
  obtain ⟨labels, hrecord, hpartition, _, hwarnings⟩ := inferAtomicity_ok hinfer
  have hnodup : (labels.map (·.label)).Nodup := by
    rw [LabelAccesses.label_recordBodies hrecord, List.map_nil, List.nil_append, labelUids_eq]
    exact nodup_labelUids hresolve
  rw [hwarnings, Warning.unused, globals_eq hresolve, List.filter_map, List.map_map]
  refine congrArg (List.map _) (List.filter_congr fun decl _ => ?_)
  rw [Bool.eq_iff_iff, decide_eq_true_eq,
    LockGroups.mem_protectedVariables hnodup hpartition]
  simp [VariableDecl.declaration]
  rfl

/-- A protected global is named by no warning, and every other one by one warning. -/
theorem count_warnings (hresolve : algorithm.resolve = .ok definitions)
    (hinfer : algorithm.inferAtomicity definitions = .ok atomicity) :
    ∀ decl ∈ algorithm.globals, (atomicity.warnings.map (·.globalName)).count decl.name =
      if decl.uid ∈ atomicity.groups.protectedVariables then 0 else 1 := by
  intro decl hdecl
  have hnodup : (algorithm.globals.map (·.name)).Nodup :=
    (scoped_of_resolve hresolve).nodup_globals
  have hnames : atomicity.warnings.map (·.globalName) =
      (algorithm.globals.filter (·.uid ∉ atomicity.groups.protectedVariables)).map (·.name) := by
    rw [warnings_of_inferAtomicity hresolve hinfer, List.map_map]
    rfl
  rw [hnames]
  have hsublist := (List.filter_sublist (p := fun decl : VariableDecl =>
    decl.uid ∉ atomicity.groups.protectedVariables) (l := algorithm.globals)).map (·.name)
  split
  · rename_i hprotected
    rw [List.count_eq_zero, List.mem_map]
    rintro ⟨other, hother, hname⟩
    obtain ⟨hmem, hwarned⟩ := List.mem_filter.1 hother
    rw [List.inj_on_of_nodup_map hnodup hmem hdecl hname] at hwarned
    exact of_decide_eq_true hwarned hprotected
  · rename_i hwarned
    apply List.count_eq_one_of_mem (hsublist.nodup hnodup)
    exact List.mem_map_of_mem (List.mem_filter.2 ⟨hdecl, decide_eq_true hwarned⟩)

/-- The report and the warnings account for all labels and globals, each in one place. -/
theorem report_accounts (hresolve : algorithm.resolve = .ok definitions)
    (hinfer : algorithm.inferAtomicity definitions = .ok atomicity) :
    atomicity.report.groups.map (·.group) =
        (List.range atomicity.groups.count).map LockGroup.mk ∧
      (∀ entry ∈ atomicity.report.groups,
        entry.labels = algorithm.labelNamesOf atomicity.groups (some entry.group) ∧
        (atomicity.groups.readsOf entry.group).toList.map definitions.nameOf =
          entry.reads.map .ok ∧
        (atomicity.groups.writesOf entry.group).toList.map definitions.nameOf =
          entry.writes.map .ok) ∧
      atomicity.report.unprotected = algorithm.labelNamesOf atomicity.groups none ∧
      (atomicity.report.groups.flatMap (·.labels) ++ atomicity.report.unprotected).Perm
        (algorithm.namedLabels.map (·.2)) ∧
      atomicity.warnings =
        (algorithm.globals.filter (·.uid ∉ atomicity.groups.protectedVariables)).map
          (fun decl => ⟨decl.name, decl.location, .empty⟩) ∧
      ∀ decl ∈ algorithm.globals, (atomicity.warnings.map (·.globalName)).count decl.name =
        if decl.uid ∈ atomicity.groups.protectedVariables then 0 else 1 := by
  obtain ⟨hnumbers, hentries, hunprotected⟩ := entries_of_inferAtomicity hinfer
  exact ⟨hnumbers, hentries, hunprotected, labels_of_inferAtomicity hinfer,
    warnings_of_inferAtomicity hresolve hinfer, count_warnings hresolve hinfer⟩

/-! ## A global that nothing uses

Step `d` of the procedure prints what step `a` of the process writes, step `b` does nothing, and no
step uses the global `idle`. -/

private def idling : Algorithm :=
  let mark (number : UInt32) : Mark := ⟨⟨number⟩, .unknown⟩
  let global (number : UInt32) (name : String) : VariableDecl :=
    ⟨⟨number⟩, name, none, .plain, .unknown⟩
  ⟨"T", [], [global 1 "x", global 2 "idle", global 3 "y"],
    [⟨⟨30⟩, "Q", [], [],
      [.labeled (mark 31) ⟨⟨32⟩, "d"⟩ [.print (mark 33) (.identifier ⟨34⟩ "x")]]⟩],
    [⟨⟨4⟩, "P", ⟨5⟩, .single (.number ⟨6⟩ 1), [],
      [.labeled (mark 10) ⟨⟨11⟩, "a"⟩
          [.assign (mark 12) [⟨.identifier ⟨13⟩ "x", .number ⟨14⟩ 1⟩]],
        .labeled (mark 15) ⟨⟨16⟩, "b"⟩ [.skip (mark 17)],
        .labeled (mark 20) ⟨⟨21⟩, "c"⟩
          [.assign (mark 22) [⟨.identifier ⟨23⟩ "y", .number ⟨24⟩ 2⟩]]]⟩]⟩

private def idlingDefinitions : Definitions :=
  ⟨[⟨⟨1⟩, "x", .global .plain, .unknown⟩, ⟨⟨2⟩, "idle", .global .plain, .unknown⟩,
      ⟨⟨3⟩, "y", .global .plain, .unknown⟩, ⟨⟨5⟩, "self", .processSelf, .unknown⟩],
    [(⟨23⟩, ⟨3⟩), (⟨13⟩, ⟨1⟩), (⟨34⟩, ⟨1⟩)]⟩

private def idlingAtomicity : Atomicity :=
  ⟨⟨[(⟨11⟩, ⟨0⟩), (⟨21⟩, ⟨1⟩), (⟨32⟩, ⟨0⟩)], [(⟨0⟩, ⟨1⟩)], [(⟨0⟩, ⟨1⟩), (⟨1⟩, ⟨3⟩)]⟩,
    ⟨"T", [⟨⟨0⟩, ["P.a", "Q.d"], ["x"], ["x"]⟩, ⟨⟨1⟩, ["P.c"], [], ["y"]⟩], ["P.b"]⟩,
    [⟨"idle", .unknown, .empty⟩]⟩

theorem report_accounts_idling :
    idling.resolve = .ok idlingDefinitions ∧
      idling.inferAtomicity idlingDefinitions = .ok idlingAtomicity ∧
      idling.namedLabels.map (·.2) = ["P.a", "P.b", "P.c", "Q.d"] ∧
      (idlingAtomicity.report.groups.flatMap (·.labels) ++ idlingAtomicity.report.unprotected).Perm
        ["P.a", "P.b", "P.c", "Q.d"] ∧
      (idlingAtomicity.warnings.map (·.globalName)).count "x" = 0 ∧
      (idlingAtomicity.warnings.map (·.globalName)).count "idle" = 1 := by
  have hresolve : idling.resolve = .ok idlingDefinitions := by cbv
  have hinfer : idling.inferAtomicity idlingDefinitions = .ok idlingAtomicity := by cbv
  have hlabels : idling.namedLabels.map (·.2) = ["P.a", "P.b", "P.c", "Q.d"] := by decide
  obtain ⟨_, _, _, hperm, _, hcounts⟩ := report_accounts hresolve hinfer
  rw [hlabels] at hperm
  obtain ⟨hx, hidle, _⟩ : _ ∧ _ ∧ _ := by simpa only [idling, List.forall_mem_cons] using hcounts
  have hprotected : (⟨1⟩ : Uid) ∈ idlingAtomicity.groups.protectedVariables := by decide
  have hfree : (⟨2⟩ : Uid) ∉ idlingAtomicity.groups.protectedVariables := by decide
  exact ⟨hresolve, hinfer, hlabels, hperm, hx.trans (if_pos hprotected), hidle.trans (if_neg hfree)⟩

end Algorithm

end PlusCalGo
