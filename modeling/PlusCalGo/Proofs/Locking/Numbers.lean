import PlusCalGo.Proofs.Locking.Contents
import PlusCalGo.Proofs.Locking.Groups

/-!
# Numbers of lock groups

The count of a registry is above the number of every group that a label has. Inferred groups are
numbered without gaps: every number below the count is the group of a label of the algorithm.
-/

namespace PlusCalGo

/-! ## The count of a registry -/

namespace LockGroups

variable {groups : LockGroups} {label : Uid} {group : LockGroup}

/-- A label with a group has an entry. -/
theorem mem_labels_of_groupOf? (h : groups.groupOf? label = some group) :
    (label, group) ∈ groups.labels := by
  obtain ⟨entry, hentry, rfl⟩ := Option.map_eq_some_iff.1 h
  have hlabel : entry.1 = label := by simpa using List.find?_some hentry
  rw [← hlabel]
  exact List.mem_of_find?_eq_some hentry

theorem index_lt_count (h : groups.groupOf? label = some group) : group.index < groups.count :=
  lt_count.2 ⟨_, mem_labels_of_groupOf? h, Nat.le_refl _⟩

end LockGroups

/-! ## Groups in a report -/

namespace AtomicityReport

variable {definitions : Definitions} {groups : LockGroups} {report after : AtomicityReport}
  {accesses : LabelAccesses}

/-- A label joins the entry of its group. -/
private theorem length_of_join {reported : List LockGroupReport} {index : Nat}
    {join : LockGroupReport → LockGroupReport} {problem : Diagnostic}
    (h : (match reported[index]? with
      | none => Except.error problem
      | some entry => .ok { report with groups := reported.set index (join entry) }) = .ok after) :
    index < reported.length ∧ after.groups.length = reported.length := by
  split at h
  · cases h
  · rename_i entry hentry
    cases h
    exact ⟨(List.getElem?_eq_some_iff.1 hentry).1, List.length_set⟩

/-- A label that is reported has no group, or a group that is the next one at most. -/
theorem addLabel_length (h : addLabel definitions groups report accesses = .ok after) :
    groups.groupOf? accesses.label = none ∧ after.groups.length = report.groups.length ∨
      ∃ group, groups.groupOf? accesses.label = some group ∧
        group.index ≤ report.groups.length ∧
          after.groups.length = max report.groups.length (group.index + 1) := by
  unfold addLabel at h
  split at h
  · rename_i hnone
    cases h
    exact .inl ⟨hnone, rfl⟩
  · rename_i group hgroup
    refine .inr ⟨group, hgroup, ?_⟩
    -- In both cases the label joins the entry of its group, which has to be there by then.
    split at h
    · rename_i hnext
      obtain ⟨reads, _, h⟩ := ok_of_bind h
      obtain ⟨writes, _, h⟩ := ok_of_bind h
      obtain ⟨reported, hreported, h⟩ := ok_of_bind h
      cases hreported
      obtain ⟨_, hlength⟩ := length_of_join h
      rw [hlength, List.length_append, List.length_singleton]
      omega
    · obtain ⟨reported, hreported, h⟩ := ok_of_bind h
      cases hreported
      obtain ⟨hlt, hlength⟩ := length_of_join h
      rw [hlength]
      omega

/-- Once all labels are reported, the numbers of the groups reported are those the labels have. -/
theorem addLabels_numbers {labels : List LabelAccesses}
    (h : addLabels definitions groups report labels = .ok after) :
    report.groups.length ≤ after.groups.length ∧
      (∀ accesses ∈ labels, ∀ group, groups.groupOf? accesses.label = some group →
        group.index < after.groups.length) ∧
      ∀ number < after.groups.length, number < report.groups.length ∨
        ∃ accesses ∈ labels, groups.groupOf? accesses.label = some ⟨number⟩ := by
  induction labels generalizing report with
  | nil =>
    cases h
    exact ⟨Nat.le_refl _, by simp, fun number hnumber => .inl hnumber⟩
  | cons accesses rest ih =>
    obtain ⟨between, hadd, hrest⟩ := ok_of_bind h
    obtain ⟨hle, hbelow, hreported⟩ := ih hrest
    rcases addLabel_length hadd with ⟨hnone, hlength⟩ | ⟨group, hgroup, hnext, hlength⟩
    · refine ⟨hlength ▸ hle, List.forall_mem_cons.2 ⟨by simp [hnone], hbelow⟩, ?_⟩
      intro number hnumber
      rcases hreported number hnumber with hold | ⟨other, hother, hothers⟩
      · exact .inl (hlength ▸ hold)
      · exact .inr ⟨other, List.mem_cons_of_mem _ hother, hothers⟩
    · refine ⟨by omega, List.forall_mem_cons.2 ⟨?_, hbelow⟩, ?_⟩
      · intro other hother
        cases hgroup.symm.trans hother
        omega
      · intro number hnumber
        rcases hreported number hnumber with hold | ⟨other, hother, hothers⟩
        · by_cases hfirst : number < report.groups.length
          · exact .inl hfirst
          · have hsame : group = ⟨number⟩ := by
              cases group
              simp only [LockGroup.mk.injEq] at *
              omega
            exact .inr ⟨accesses, List.mem_cons_self, hsame ▸ hgroup⟩
        · exact .inr ⟨other, List.mem_cons_of_mem _ hother, hothers⟩

end AtomicityReport

/-! ## Inferred groups -/

namespace LabelAccesses

variable {definitions : Definitions} {labels after : List LabelAccesses}

section Kept

variable {α : Type} {kept : LabelAccesses → α}
  (hkept : ∀ accesses isWrite globals, kept (accesses.add isWrite globals) = kept accesses)
include hkept

private theorem map_record {access : Access} (h : record definitions labels access = .ok after) :
    after.map kept = labels.map kept := by
  obtain ⟨front, old, back, rfl, _, rfl⟩ := record_ok h
  rw [List.map_append, List.map_cons, hkept, List.map_append, List.map_cons]

private theorem map_recordAll {accesses : List Access}
    (h : recordAll definitions labels accesses = .ok after) :
    after.map kept = labels.map kept := by
  induction accesses generalizing labels with
  | nil =>
    cases h
    rfl
  | cons access rest ih =>
    obtain ⟨between, hrecord, hrest⟩ := ok_of_bind h
    rw [ih hrest, map_record hkept hrecord]

/-- Recording bodies adds their labels. What accesses do not change stays as it is. -/
theorem map_recordBodies {bodies : List (String × List Statement)}
    (h : recordBodies definitions labels bodies = .ok after) :
    after.map kept = labels.map kept ++
      bodies.flatMap fun body => (Statement.listLabels body.1 body.2).map kept := by
  induction bodies generalizing labels with
  | nil =>
    cases h
    simp
  | cons body rest ih =>
    obtain ⟨between, hbody, hrest⟩ := ok_of_bind h
    obtain ⟨recorded, hrecord, hbody⟩ := ok_of_bind hbody
    have hbetween : recorded = between := by
      split at hbody
      · cases hbody
      · cases hbody
        rfl
    rw [ih hrest, ← hbetween, map_recordAll hkept hrecord, List.map_append, List.flatMap_cons,
      List.append_assoc]

end Kept

/-- Recording bodies adds their labels, and nothing else. -/
theorem label_recordBodies {bodies : List (String × List Statement)}
    (h : recordBodies definitions labels bodies = .ok after) :
    after.map (·.label) = labels.map (·.label) ++
      bodies.flatMap fun body => Statement.listLabelUids body.2 := by
  rw [map_recordBodies add_label h]
  simp only [Statement.label_listLabels]

end LabelAccesses

/-- A partition assigns groups to the labels it is given, and to no others. -/
theorem LockGroups.mem_of_partition {labels : List LabelAccesses} {groups : LockGroups}
    (h : LockGroups.empty.partition labels = (groups, none)) {entry : Uid × LockGroup}
    (hentry : entry ∈ groups.labels) :
    ∃ accesses ∈ labels, groups.groupOf? accesses.label = some entry.2 := by
  obtain ⟨hdescends, _⟩ := Conflicts.joined_ofLabels labels
  obtain ⟨all, _, _, honly⟩ := numberLabels_spec hdescends (.refl hdescends) [] 0 labels
  rw [(registerAll_ok h).1] at hentry
  have hnew : entry ∈ (lockGroupsOf labels).map fun entry => (entry.1.label, entry.2) := hentry
  obtain ⟨added, hadded, rfl⟩ := List.mem_map.1 hnew
  exact ⟨added.1, (honly added hadded).1, (registers_of_registerAll h).adds added hadded⟩

/-- The groups of an algorithm are numbered without gaps. -/
theorem Algorithm.lt_count_of_inferAtomicity {algorithm : Algorithm} {definitions : Definitions}
    {atomicity : Atomicity} (h : algorithm.inferAtomicity definitions = .ok atomicity)
    {number : Nat} (hnumber : number < atomicity.groups.count) :
    ∃ label ∈ algorithm.labelUids, atomicity.groups.groupOf? label = some ⟨number⟩ := by
  obtain ⟨labels, hrecord, hpartition, hreport, _⟩ := inferAtomicity_ok h
  obtain ⟨_, hbelow, hreported⟩ := AtomicityReport.addLabels_numbers hreport
  obtain ⟨entry, hentry, hle⟩ := LockGroups.lt_count.1 hnumber
  obtain ⟨highest, hmem, hhighest⟩ := LockGroups.mem_of_partition hpartition hentry
  have hlt := hbelow highest hmem entry.2 hhighest
  rcases hreported number (Nat.lt_of_le_of_lt hle hlt) with hnone | ⟨accesses, haccesses, hgroup⟩
  · exact absurd hnone (Nat.not_lt_zero number)
  · refine ⟨accesses.label, ?_, hgroup⟩
    have hlabels := LabelAccesses.label_recordBodies hrecord
    rw [List.map_nil, List.nil_append, labelUids_eq] at hlabels
    rw [← hlabels]
    exact List.mem_map_of_mem haccesses

end PlusCalGo
