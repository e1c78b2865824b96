import Mathlib.Data.List.Dedup
import Mathlib.Data.List.Permutation
import PlusCalGo.Proofs.Locking.Order

/-!
# What the groups of a partition hold

A partition registers each label that touches a variable once, with all that it touches. So a group
reads and writes what its labels do, the numbers of the groups have no gaps, and a variable that is
written belongs to one group.
-/

namespace PlusCalGo

/-! ## Numbers in order -/

section InOrder

variable {α : Type} {group? : α → Option LockGroup} {items : List α}

/-- A group comes up again, or its number is the first that is not in use yet. -/
theorem InOrder.next (h : InOrder group? items) {front back : List α} {item : α}
    {group : LockGroup} (hitems : items = front ++ item :: back)
    (hgroup : group? item = some group) :
    (∃ earlier ∈ front, group? earlier = some group) ∨
      ∀ number, number < group.index ↔ ∃ earlier ∈ front, group? earlier = some ⟨number⟩ := by
  by_cases hused : ∃ earlier ∈ front, group? earlier = some group
  · exact .inl hused
  right
  intro number
  constructor
  · exact h front item back hitems group hgroup number
  · rintro ⟨earlier, hmem, hearlier⟩
    have hne : number ≠ group.index := by
      rintro rfl
      exact hused ⟨earlier, hmem, hearlier⟩
    by_contra hnumber
    have hlt : group.index < number := by omega
    -- A larger number in front would have the group itself in front of it.
    obtain ⟨early, late, rfl⟩ := List.append_of_mem hmem
    have hsplit : items = early ++ earlier :: (late ++ item :: back) := by
      rw [hitems, List.append_assoc, List.cons_append]
    obtain ⟨other, hother, hgroupOther⟩ := h _ _ _ hsplit _ hearlier _ hlt
    exact hused ⟨other, List.mem_append_left _ hother, hgroupOther⟩

/-- All numbers below one in use are in use. -/
theorem InOrder.exists_lt (h : InOrder group? items) {item : α} (hmem : item ∈ items)
    {group : LockGroup} (hgroup : group? item = some group) {number : Nat}
    (hnumber : number < group.index) : ∃ earlier ∈ items, group? earlier = some ⟨number⟩ := by
  obtain ⟨front, back, rfl⟩ := List.append_of_mem hmem
  obtain ⟨earlier, hearlier, hgroupEarlier⟩ := h front item back rfl group hgroup number hnumber
  exact ⟨earlier, List.mem_append_left _ hearlier, hgroupEarlier⟩

/-- If the numbers in use are those below a bound, there are as many groups. -/
theorem length_dedup_eq {groups : List LockGroup} {bound : Nat}
    (h : ∀ group : LockGroup, group ∈ groups ↔ group.index < bound) :
    groups.dedup.length = bound := by
  have hperm : groups.dedup.Perm ((List.range bound).map LockGroup.mk) := by
    apply (List.perm_ext_iff_of_nodup (List.nodup_dedup groups) _).2
    · intro group
      rw [List.mem_dedup, h, List.mem_map]
      constructor
      · exact fun hlt => ⟨group.index, List.mem_range.2 hlt, rfl⟩
      · rintro ⟨number, hnumber, rfl⟩
        exact List.mem_range.1 hnumber
    · apply List.nodup_range.map
      intro a b hab
      exact congrArg LockGroup.index hab
  rw [hperm.length_eq, List.length_map, List.length_range]

end InOrder

/-! ## What is registered -/

namespace LockGroups

section Registering

variable {groups after : LockGroups} {entries : List (LabelAccesses × LockGroup)}

private theorem foldl_max_le (entries : List (Uid × LockGroup)) (start bound : Nat) :
    entries.foldl (fun n entry => max n (entry.2.index + 1)) start ≤ bound ↔
      start ≤ bound ∧ ∀ entry ∈ entries, entry.2.index < bound := by
  induction entries generalizing start with
  | nil => simp
  | cons entry rest ih =>
    rw [List.foldl_cons, ih, List.forall_mem_cons, Nat.max_le, and_assoc, Nat.lt_iff_add_one_le]

/-- The count is the least number above all groups. -/
theorem count_le {bound : Nat} :
    groups.count ≤ bound ↔ ∀ entry ∈ groups.labels, entry.2.index < bound := by
  rw [count, foldl_max_le]
  simp

theorem lt_count {number : Nat} :
    number < groups.count ↔ ∃ entry ∈ groups.labels, number ≤ entry.2.index := by
  rw [← Nat.not_le, count_le]
  simp only [not_forall, exists_prop, Nat.not_lt]

end Registering

/-! ## Partitions -/

variable {labels : List LabelAccesses} {groups : LockGroups}

/-- The labels are registered under the groups they have in the end. -/
theorem mem_lockGroupsOf (hnodup : (labels.map (·.label)).Nodup)
    (h : empty.partition labels = (groups, none)) {accesses : LabelAccesses} {group : LockGroup} :
    (accesses, group) ∈ lockGroupsOf labels ↔
      accesses ∈ labels ∧ groups.groupOf? accesses.label = some group := by
  have hregisters := registers_of_registerAll h
  have hlabels : ∀ entry ∈ lockGroupsOf labels, entry.1 ∈ labels := fun entry hentry =>
    (numberLabels_sublist _ [] 0 labels).subset (List.mem_map_of_mem hentry)
  constructor
  · exact fun hentry => ⟨hlabels _ hentry, hregisters.adds _ hentry⟩
  · rintro ⟨hmem, hgroup⟩
    rcases hregisters.only _ _ hgroup with hempty | ⟨entry, hentry, hlabel⟩
    · cases hempty
    have hsame : entry.1 = accesses :=
      List.inj_on_of_nodup_map hnodup (hlabels _ hentry) hmem hlabel
    have hadded := hregisters.adds entry hentry
    rw [hsame, hgroup] at hadded
    cases hadded
    rw [← hsame]
    exact hentry

/-- A group uses a variable in the way its labels do. -/
theorem mem_accesses_of_partition (hnodup : (labels.map (·.label)).Nodup)
    (h : empty.partition labels = (groups, none)) {group : LockGroup} {global : Uid}
    (set : LabelAccesses → UidSet) :
    (group, global) ∈ (lockGroupsOf labels).flatMap
        (fun entry => (set entry.1).toList.map (entry.2, ·)) ↔
      ∃ accesses ∈ labels, groups.groupOf? accesses.label = some group ∧ global ∈ set accesses := by
  simp only [List.mem_flatMap, List.mem_map, Prod.mk.injEq, Prod.exists]
  constructor
  · rintro ⟨accesses, own, hentry, other, hmem, rfl, rfl⟩
    obtain ⟨hlabel, hgroup⟩ := (mem_lockGroupsOf hnodup h).1 hentry
    exact ⟨accesses, hlabel, hgroup, hmem⟩
  · rintro ⟨accesses, hlabel, hgroup, hmem⟩
    exact ⟨accesses, group, (mem_lockGroupsOf hnodup h).2 ⟨hlabel, hgroup⟩, global, hmem, rfl, rfl⟩

theorem labels_of_partition (h : empty.partition labels = (groups, none)) :
    groups.labels = (lockGroupsOf labels).map fun entry => (entry.1.label, entry.2) :=
  (registerAll_ok h).1

theorem mem_readsOf_partition (hnodup : (labels.map (·.label)).Nodup)
    (h : empty.partition labels = (groups, none)) {group : LockGroup} {global : Uid} :
    global ∈ groups.readsOf group ↔
      ∃ accesses ∈ labels, groups.groupOf? accesses.label = some group ∧
        global ∈ accesses.reads := by
  obtain ⟨_, hreads, _⟩ := registerAll_ok h
  rw [mem_readsOf, hreads]
  exact mem_accesses_of_partition hnodup h LabelAccesses.reads

theorem mem_writesOf_partition (hnodup : (labels.map (·.label)).Nodup)
    (h : empty.partition labels = (groups, none)) {group : LockGroup} {global : Uid} :
    global ∈ groups.writesOf group ↔
      ∃ accesses ∈ labels, groups.groupOf? accesses.label = some group ∧
        global ∈ accesses.writes := by
  obtain ⟨_, _, hwrites⟩ := registerAll_ok h
  rw [mem_writesOf, hwrites]
  exact mem_accesses_of_partition hnodup h LabelAccesses.writes

theorem isSome_groupOf?_partition (hnodup : (labels.map (·.label)).Nodup)
    (h : empty.partition labels = (groups, none)) {accesses : LabelAccesses}
    (hmem : accesses ∈ labels) :
    (groups.groupOf? accesses.label).isSome ↔ accesses.touchesGlobals = true := by
  obtain ⟨hsome, _⟩ := partition_spec hnodup h
  obtain ⟨index, hindex⟩ := List.mem_iff_getElem?.1 hmem
  rw [hsome, touchesGlobals_iff]
  constructor
  · rintro ⟨isWrite, global, htouched⟩
    obtain ⟨other, hother, hglobal⟩ := (touchedBy_iff hnodup hindex).1 htouched
    rw [hindex] at hother
    cases hother
    exact ⟨isWrite, global, hglobal⟩
  · rintro ⟨isWrite, global, hglobal⟩
    exact ⟨isWrite, global, accesses, hmem, rfl, hglobal⟩

/-- There are as many numbers as groups. -/
theorem count_of_partition (hnodup : (labels.map (·.label)).Nodup)
    (h : empty.partition labels = (groups, none)) :
    groups.count =
      (labels.filterMap fun accesses => groups.groupOf? accesses.label).dedup.length := by
  have horder := partition_inOrder hnodup h
  refine (length_dedup_eq ?_).symm
  intro group
  rw [List.mem_filterMap, lt_count, labels_of_partition h]
  constructor
  · rintro ⟨accesses, hmem, hgroup⟩
    have hentry := (mem_lockGroupsOf hnodup h).2 ⟨hmem, hgroup⟩
    exact ⟨_, List.mem_map_of_mem hentry, Nat.le_refl _⟩
  · rintro ⟨entry, hentry, hle⟩
    obtain ⟨⟨accesses, last⟩, hregistered, rfl⟩ := List.mem_map.1 hentry
    obtain ⟨hmem, hlast⟩ := (mem_lockGroupsOf hnodup h).1 hregistered
    rcases Nat.lt_or_eq_of_le hle with hlt | heq
    · exact horder.exists_lt hmem hlast hlt
    · refine ⟨accesses, hmem, ?_⟩
      rw [hlast]
      exact congrArg (fun number => some (LockGroup.mk number)) heq.symm

/-- Only one group reads or writes a variable that a label writes. -/
theorem existsUnique_of_written (hnodup : (labels.map (·.label)).Nodup)
    (h : empty.partition labels = (groups, none)) {accesses : LabelAccesses} {global : Uid}
    (hmem : accesses ∈ labels) (hwrite : global ∈ accesses.writes) :
    ∃! group, global ∈ groups.readsOf group ∨ global ∈ groups.writesOf group := by
  have htouches : accesses.touchesGlobals = true := touchesGlobals_iff.2 ⟨true, global, hwrite⟩
  obtain ⟨group, hgroup⟩ :=
    Option.isSome_iff_exists.1 ((isSome_groupOf?_partition hnodup h hmem).2 htouches)
  refine ⟨group, .inr ((mem_writesOf_partition hnodup h).2 ⟨accesses, hmem, hgroup, hwrite⟩), ?_⟩
  intro other huses
  have huser : ∃ user ∈ labels, groups.groupOf? user.label = some other ∧
      ∃ isWrite, global ∈ user.touched isWrite := by
    rcases huses with hread | hwritten
    · obtain ⟨user, huser, hother, hmem⟩ := (mem_readsOf_partition hnodup h).1 hread
      exact ⟨user, huser, hother, false, hmem⟩
    · obtain ⟨user, huser, hother, hmem⟩ := (mem_writesOf_partition hnodup h).1 hwritten
      exact ⟨user, huser, hother, true, hmem⟩
  obtain ⟨user, huser, hother, isWrite, htouched⟩ := huser
  have hconflict : Conflicting (TouchedBy labels) user.label accesses.label :=
    ⟨isWrite, global, .inr ⟨⟨accesses, hmem, rfl, hwrite⟩, ⟨user, huser, rfl, htouched⟩⟩⟩
  obtain ⟨_, hsame⟩ := partition_spec hnodup h
  exact (hsame _ _ _ _ hother hgroup).2 (.single hconflict)

/-- Labels that differ can be partitioned. Those that touch a variable have groups, numbered without
gaps as they come; a group reads and writes what its labels do, and a variable that is written is
used by one group. -/
theorem partition_exact (hnodup : (labels.map (·.label)).Nodup) :
    ∃ groups, empty.partition labels = (groups, none) ∧
      (∀ accesses ∈ labels,
        (groups.groupOf? accesses.label).isSome ↔ accesses.touchesGlobals = true) ∧
      (∀ front accesses back group, labels = front ++ accesses :: back →
        groups.groupOf? accesses.label = some group →
          (∃ earlier ∈ front, groups.groupOf? earlier.label = some group) ∨
          ∀ number, number < group.index ↔
            ∃ earlier ∈ front, groups.groupOf? earlier.label = some ⟨number⟩) ∧
      groups.count =
        (labels.filterMap fun accesses => groups.groupOf? accesses.label).dedup.length ∧
      (∀ group global, global ∈ groups.readsOf group ↔
        ∃ accesses ∈ labels, groups.groupOf? accesses.label = some group ∧
          global ∈ accesses.reads) ∧
      (∀ group global, global ∈ groups.writesOf group ↔
        ∃ accesses ∈ labels, groups.groupOf? accesses.label = some group ∧
          global ∈ accesses.writes) ∧
      ∀ accesses ∈ labels, ∀ global ∈ accesses.writes,
        ∃! group, global ∈ groups.readsOf group ∨ global ∈ groups.writesOf group := by
  obtain ⟨groups, h⟩ := partition_of_nodup hnodup
  refine ⟨groups, h, ?_, ?_, count_of_partition hnodup h, ?_, ?_, ?_⟩
  · exact fun accesses hmem => isSome_groupOf?_partition hnodup h hmem
  · intro front accesses back group hlabels hgroup
    exact (partition_inOrder hnodup h).next hlabels hgroup
  · exact fun group global => mem_readsOf_partition hnodup h
  · exact fun group global => mem_writesOf_partition hnodup h
  · exact fun accesses hmem global hwrite => existsUnique_of_written hnodup h hmem hwrite

/-- The label `d` joins the groups of `a` and `c`, so `e` has the next number after them. -/
theorem partition_exact_joining :
    let labels : List LabelAccesses :=
      [⟨⟨1⟩, "a", .empty, .ofList [⟨11⟩]⟩, ⟨⟨2⟩, "b", .empty, .empty⟩,
        ⟨⟨3⟩, "c", .ofList [⟨12⟩], .empty⟩, ⟨⟨4⟩, "d", .ofList [⟨11⟩], .ofList [⟨12⟩]⟩,
        ⟨⟨5⟩, "e", .ofList [⟨13⟩], .empty⟩]
    (labels.map (·.label)).Nodup ∧
      ∃ groups, empty.partition labels = (groups, none) ∧ groups.count = 2 ∧
        groups.groupOf? ⟨3⟩ = some ⟨0⟩ ∧ groups.groupOf? ⟨5⟩ = some ⟨1⟩ ∧
        ∀ accesses ∈ labels, ∀ global ∈ accesses.writes,
          ∃! group, global ∈ groups.readsOf group ∨ global ∈ groups.writesOf group := by
  intro labels
  have hnodup : (labels.map (·.label)).Nodup := by decide
  obtain ⟨groups, h, _, _, _, _, _, hwritten⟩ := partition_exact hnodup
  have hpartition : empty.partition labels =
      (⟨[(⟨1⟩, ⟨0⟩), (⟨3⟩, ⟨0⟩), (⟨4⟩, ⟨0⟩), (⟨5⟩, ⟨1⟩)],
        [(⟨0⟩, ⟨12⟩), (⟨0⟩, ⟨11⟩), (⟨1⟩, ⟨13⟩)], [(⟨0⟩, ⟨11⟩), (⟨0⟩, ⟨12⟩)]⟩, none) := by cbv
  rw [hpartition] at h
  cases h
  exact ⟨hnodup, _, hpartition, by decide, by decide, by decide, hwritten⟩

end LockGroups

end PlusCalGo
