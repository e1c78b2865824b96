import Mathlib.Data.List.Basic
import PlusCalGo.Proofs.Locking.Grouping

/-!
# Numbers of groups

Roots are numbered in the order in which their first label comes, and a number once given stays. A
partition therefore gives two labels one group exactly if a chain of conflicts leads from one to the
other.
-/

namespace PlusCalGo

/-! ## Numbering roots -/

private theorem root_added (roots : List Nat) (root : Nat) :
    roots <+: (if root ∈ roots then roots else roots ++ [root]) ∧
      root ∈ if root ∈ roots then roots else roots ++ [root] := by
  by_cases h : root ∈ roots
  · rw [if_pos h]
    exact ⟨List.prefix_refl roots, h⟩
  · rw [if_neg h]
    exact ⟨List.prefix_append roots [root], List.mem_append_right _ List.mem_cons_self⟩

/-- The entries of the labels behind a place, in terms of the forest that labels were joined in and
of the list of all roots. -/
structure Numbered (origin : Forest) (all : List Nat) (index : Nat) (labels : List LabelAccesses)
    (entries : List (LabelAccesses × LockGroup)) : Prop where
  numbers : ∀ offset accesses, labels[offset]? = some accesses → accesses.touchesGlobals = true →
    ∃ root ∈ all, origin.Climbs (index + offset) root ∧ (accesses, ⟨all.idxOf root⟩) ∈ entries
  only : ∀ entry ∈ entries, entry.1 ∈ labels ∧ entry.1.touchesGlobals = true

section Numbering

variable {origin forest : Forest} {all : List Nat} {index : Nat} {accesses : LabelAccesses}
  {labels rest : List LabelAccesses} {entries : List (LabelAccesses × LockGroup)}

theorem Numbered.skip (h : Numbered origin all (index + 1) rest entries)
    (htouches : ¬ accesses.touchesGlobals = true) :
    Numbered origin all index (accesses :: rest) entries where
  numbers := by
    intro offset other hother hothers
    cases offset with
    | zero =>
      cases hother
      exact absurd hothers htouches
    | succ offset =>
      obtain ⟨root, hmem, hclimbs, hentry⟩ := h.numbers offset other hother hothers
      rw [Nat.add_right_comm] at hclimbs
      exact ⟨root, hmem, hclimbs, hentry⟩
  only := fun entry hentry =>
    ⟨List.mem_cons_of_mem _ (h.only entry hentry).1, (h.only entry hentry).2⟩

theorem Numbered.cons {root : Nat} (h : Numbered origin all (index + 1) rest entries)
    (htouches : accesses.touchesGlobals = true) (hclimbs : origin.Climbs index root)
    (hroot : root ∈ all) :
    Numbered origin all index (accesses :: rest) ((accesses, ⟨all.idxOf root⟩) :: entries) where
  numbers := by
    intro offset other hother hothers
    cases offset with
    | zero =>
      cases hother
      exact ⟨root, hroot, hclimbs, List.mem_cons_self⟩
    | succ offset =>
      obtain ⟨top, hmem, htop, hentry⟩ := h.numbers offset other hother hothers
      rw [Nat.add_right_comm] at htop
      exact ⟨top, hmem, htop, List.mem_cons_of_mem _ hentry⟩
  only := by
    intro entry hentry
    rcases List.mem_cons.1 hentry with rfl | hentry
    · exact ⟨List.mem_cons_self, htouches⟩
    · exact ⟨List.mem_cons_of_mem _ (h.only entry hentry).1, (h.only entry hentry).2⟩

/-- Every label that touches a variable has the number of its root in one list of roots. -/
theorem numberLabels_spec (horigin : origin.Descends) (hsame : origin.SameRoots forest)
    (roots : List Nat) (index : Nat) (labels : List LabelAccesses) :
    ∃ all, roots <+: all ∧
      Numbered origin all index labels (numberLabels forest roots index labels) := by
  induction labels generalizing forest roots index with
  | nil => exact ⟨roots, List.prefix_refl roots, by simp, by simp [numberLabels]⟩
  | cons accesses rest ih =>
    by_cases htouches : accesses.touchesGlobals = true
    · rcases hfind : forest.find index with ⟨next, root⟩
      obtain ⟨hclimbs, hnext⟩ := Forest.find_spec hsame.1 hfind
      obtain ⟨hroots, hroot⟩ := root_added roots root
      simp only [numberLabels, if_pos htouches, hfind]
      generalize (if root ∈ roots then roots else roots ++ [root]) = added at *
      obtain ⟨_, ⟨more, rfl⟩, hrest⟩ := ih (hsame.trans hnext) added (index + 1)
      refine ⟨added ++ more, hroots.trans (List.prefix_append added more), ?_⟩
      rw [← List.idxOf_append_of_mem hroot]
      exact hrest.cons htouches ((hsame.climbs_iff horigin).1 hclimbs)
        (List.mem_append_left more hroot)
    · obtain ⟨all, hall, hrest⟩ := ih hsame roots (index + 1)
      simp only [numberLabels, if_neg htouches]
      exact ⟨all, hall, hrest.skip htouches⟩

end Numbering

/-! ## Registering groups -/

namespace LockGroups

/-- Labels keep the groups they have, and the entries are all that is added. -/
structure Registers (before after : LockGroups) (entries : List (LabelAccesses × LockGroup)) :
    Prop where
  keeps : ∀ label group, before.groupOf? label = some group → after.groupOf? label = some group
  adds : ∀ entry ∈ entries, after.groupOf? entry.1.label = some entry.2
  only : ∀ label group, after.groupOf? label = some group →
    before.groupOf? label = some group ∨ ∃ entry ∈ entries, entry.1.label = label

section Registering

variable {groups between after : LockGroups} {accesses : LabelAccesses} {group : LockGroup}
  {entries : List (LabelAccesses × LockGroup)}

private theorem foldl_addRead (globals : List Uid) (groups : LockGroups) :
    globals.foldl (fun groups global => groups.addRead group global) groups =
      { groups with reads := groups.reads ++ globals.map (group, ·) } := by
  induction globals generalizing groups with
  | nil => simp
  | cons global rest ih =>
    rw [List.foldl_cons, ih]
    simp [addRead]

private theorem foldl_addWrite (globals : List Uid) (groups : LockGroups) :
    globals.foldl (fun groups global => groups.addWrite group global) groups =
      { groups with writes := groups.writes ++ globals.map (group, ·) } := by
  induction globals generalizing groups with
  | nil => simp
  | cons global rest ih =>
    rw [List.foldl_cons, ih]
    simp [addWrite]

/-- A label that has no group yet is added with what it touches. -/
theorem register_ok (h : groups.register accesses group = .ok after) :
    groups.groupOf? accesses.label = none ∧
      after = ⟨groups.labels ++ [(accesses.label, group)],
        groups.reads ++ accesses.reads.toList.map (group, ·),
        groups.writes ++ accesses.writes.toList.map (group, ·)⟩ := by
  obtain ⟨labelled, hlabel, h⟩ := ok_of_bind h
  unfold addLabel at hlabel
  split at hlabel
  · cases hlabel
  · rename_i hnone
    cases hlabel
    simp only [foldl_addRead, foldl_addWrite] at h
    cases h
    exact ⟨hnone, rfl⟩

/-- Every entry adds its label and what this label touches, one after the other. -/
theorem registerAll_ok {entries : List (LabelAccesses × LockGroup)}
    (h : groups.registerAll entries = (after, none)) :
    after.labels = groups.labels ++ entries.map (fun entry => (entry.1.label, entry.2)) ∧
      after.reads = groups.reads ++
        entries.flatMap (fun entry => entry.1.reads.toList.map (entry.2, ·)) ∧
      after.writes = groups.writes ++
        entries.flatMap (fun entry => entry.1.writes.toList.map (entry.2, ·)) := by
  induction entries generalizing groups with
  | nil =>
    cases h
    simp
  | cons entry rest ih =>
    obtain ⟨accesses, group⟩ := entry
    simp only [registerAll] at h
    cases hregister : groups.register accesses group with
    | error problem => simp [hregister] at h
    | ok between =>
      rw [hregister] at h
      obtain ⟨_, rfl⟩ := register_ok hregister
      obtain ⟨hlabels, hreads, hwrites⟩ := ih h
      rw [hlabels, hreads, hwrites]
      simp

theorem registers_of_register (h : groups.register accesses group = .ok after) :
    groups.Registers after [(accesses, group)] := by
  obtain ⟨hold, rfl⟩ := register_ok h
  have hgroupOf : ∀ label, groupOf? ⟨groups.labels ++ [(accesses.label, group)],
      groups.reads ++ accesses.reads.toList.map (group, ·),
      groups.writes ++ accesses.writes.toList.map (group, ·)⟩ label =
      (groups.groupOf? label).or (if accesses.label = label then some group else none) := by
    intro label
    simp only [groupOf?, List.find?_append, Option.map_or]
    by_cases hlabel : accesses.label = label <;> simp [hlabel]
  refine ⟨?_, ?_, ?_⟩
  · intro label other hother
    rw [hgroupOf, hother]
    rfl
  · intro entry hentry
    rw [List.mem_singleton.1 hentry, hgroupOf, hold, if_pos rfl]
    rfl
  · intro label other hother
    rw [hgroupOf] at hother
    rcases Option.or_eq_some_iff.1 hother with hother | ⟨_, hother⟩
    · exact .inl hother
    · refine .inr ⟨_, List.mem_cons_self, ?_⟩
      by_cases hlabel : accesses.label = label
      · exact hlabel
      · rw [if_neg hlabel] at hother
        simp at hother

theorem Registers.append {more : List (LabelAccesses × LockGroup)}
    (hfirst : groups.Registers between entries) (hsecond : between.Registers after more) :
    groups.Registers after (entries ++ more) where
  keeps := fun label group h => hsecond.keeps label group (hfirst.keeps label group h)
  adds := by
    intro entry hentry
    rcases List.mem_append.1 hentry with hentry | hentry
    · exact hsecond.keeps _ _ (hfirst.adds entry hentry)
    · exact hsecond.adds entry hentry
  only := by
    intro label group h
    rcases hsecond.only label group h with h | ⟨entry, hentry, hlabel⟩
    · rcases hfirst.only label group h with h | ⟨entry, hentry, hlabel⟩
      · exact .inl h
      · exact .inr ⟨entry, List.mem_append_left more hentry, hlabel⟩
    · exact .inr ⟨entry, List.mem_append_right entries hentry, hlabel⟩

theorem registers_of_registerAll (h : groups.registerAll entries = (after, none)) :
    groups.Registers after entries := by
  induction entries generalizing groups with
  | nil =>
    cases h
    exact ⟨fun _ _ h => h, by simp, fun _ _ h => .inl h⟩
  | cons entry rest ih =>
    obtain ⟨accesses, group⟩ := entry
    simp only [registerAll] at h
    cases hregister : groups.register accesses group with
    | error problem => simp [hregister] at h
    | ok between =>
      rw [hregister] at h
      exact (registers_of_register hregister).append (ih h)

/-- The group reads or writes the variable. -/
def Uses (groups : LockGroups) (group : LockGroup) (global : Uid) : Prop :=
  (group, global) ∈ groups.reads ∨ (group, global) ∈ groups.writes

/-- What groups use is touched by a label that was registered. -/
theorem touched_of_registerAll (h : groups.registerAll entries = (after, none)) {global : Uid}
    (huses : after.Uses group global) : groups.Uses group global ∨
      ∃ entry ∈ entries, ∃ isWrite, global ∈ entry.1.touched isWrite := by
  induction entries generalizing groups with
  | nil =>
    cases h
    exact .inl huses
  | cons entry rest ih =>
    obtain ⟨accesses, own⟩ := entry
    simp only [registerAll] at h
    cases hregister : groups.register accesses own with
    | error problem => simp [hregister] at h
    | ok between =>
      rw [hregister] at h
      rcases ih h with hbetween | ⟨entry, hmem, htouched⟩
      · obtain ⟨_, rfl⟩ := register_ok hregister
        rcases hbetween with hread | hwrite
        · rcases List.mem_append.1 hread with hread | hread
          · exact .inl (.inl hread)
          · obtain ⟨other, hother, heq⟩ := List.mem_map.1 hread
            cases heq
            exact .inr ⟨_, List.mem_cons_self, false, hother⟩
        · rcases List.mem_append.1 hwrite with hwrite | hwrite
          · exact .inl (.inr hwrite)
          · obtain ⟨other, hother, heq⟩ := List.mem_map.1 hwrite
            cases heq
            exact .inr ⟨_, List.mem_cons_self, true, hother⟩
      · exact .inr ⟨entry, List.mem_cons_of_mem _ hmem, htouched⟩

end Registering

end LockGroups

/-! ## Groups of a partition -/

/-- A label writes or reads a variable. -/
def TouchedBy (labels : List LabelAccesses) (label : Uid) (isWrite : Bool) (global : Uid) : Prop :=
  ∃ accesses ∈ labels, accesses.label = label ∧ global ∈ accesses.touched isWrite

section Partition

variable {labels : List LabelAccesses} {a b : LabelAccesses} {i j : Nat}

theorem index_unique (hnodup : (labels.map (·.label)).Nodup) (ha : labels[i]? = some a)
    (hb : labels[j]? = some b) (hlabel : a.label = b.label) : i = j := by
  refine (List.getElem?_inj ?_ hnodup).1 ?_
  · rw [List.length_map]
    exact (List.getElem?_eq_some_iff.1 ha).1
  · rw [List.getElem?_map, List.getElem?_map, ha, hb]
    exact congrArg some hlabel

theorem touchedBy_iff (hnodup : (labels.map (·.label)).Nodup) (ha : labels[i]? = some a)
    {isWrite : Bool} {global : Uid} :
    TouchedBy labels a.label isWrite global ↔ TouchedAt labels i isWrite global := by
  constructor
  · intro h
    rcases h with ⟨other, hother, hlabel, hmem⟩
    obtain ⟨k, hk⟩ := List.mem_iff_getElem?.1 hother
    rw [← index_unique hnodup hk ha hlabel]
    exact ⟨other, hk, hmem⟩
  · intro h
    rcases h with ⟨other, hother, hmem⟩
    rw [ha] at hother
    cases hother
    exact ⟨a, List.mem_of_getElem? ha, rfl, hmem⟩

theorem conflicting_iff (hnodup : (labels.map (·.label)).Nodup) (ha : labels[i]? = some a)
    (hb : labels[j]? = some b) :
    Conflicting (TouchedBy labels) a.label b.label ↔ Conflicting (TouchedAt labels) i j := by
  simp only [Conflicting, touchedBy_iff hnodup ha, touchedBy_iff hnodup hb]

/-- Whoever takes part in a conflict touches something. -/
theorem Conflicting.touches {α : Type} {touches : α → Bool → Uid → Prop} {a b : α}
    (h : Conflicting touches a b) : ∃ isWrite global, touches a isWrite global := by
  obtain ⟨isWrite, global, ⟨h, _⟩ | ⟨_, h⟩⟩ := h
  · exact ⟨true, global, h⟩
  · exact ⟨isWrite, global, h⟩

theorem chained_iff (hnodup : (labels.map (·.label)).Nodup) (ha : labels[i]? = some a)
    (hb : labels[j]? = some b) :
    Chained (TouchedBy labels) a.label b.label ↔ Chained (TouchedAt labels) i j := by
  constructor
  · intro hchain
    -- The labels on the way must be traced back to places in the list, so the end is generalized.
    generalize htarget : b.label = target at hchain
    induction hchain generalizing j b with
    | refl =>
      rw [index_unique hnodup hb ha htarget]
      exact .refl
    | @tail middle last _ hlast ih =>
      obtain ⟨_, _, other, hother, hmiddle, _⟩ := hlast.touches
      obtain ⟨k, hk⟩ := List.mem_iff_getElem?.1 hother
      rw [← htarget, ← hmiddle] at hlast
      exact (ih hk hmiddle).tail ((conflicting_iff hnodup hk hb).1 hlast)
  · intro hchain
    induction hchain generalizing b with
    | refl =>
      rw [ha] at hb
      cases hb
      exact .refl
    | @tail middle last _ hlast ih =>
      obtain ⟨_, _, other, hother, _⟩ := hlast.touches
      exact (ih hother).tail ((conflicting_iff hnodup hother hb).2 hlast)

theorem touchesGlobals_iff :
    a.touchesGlobals = true ↔ ∃ isWrite global, global ∈ a.touched isWrite := by
  have hempty (set : UidSet) : (!set.isEmpty) = true ↔ ∃ global, global ∈ set := by
    rw [Bool.not_eq_true', UidSet.isEmpty, List.isEmpty_eq_false_iff_exists_mem]
    rfl
  rw [LabelAccesses.touchesGlobals, Bool.or_eq_true, hempty, hempty]
  constructor
  · rintro (⟨global, h⟩ | ⟨global, h⟩)
    · exact ⟨false, global, h⟩
    · exact ⟨true, global, h⟩
  · intro h
    rcases h with ⟨isWrite, global, h⟩
    cases isWrite with
    | false => exact .inl ⟨global, h⟩
    | true => exact .inr ⟨global, h⟩

/-- A partition gives the labels that touch a variable a group, and two of them the same one exactly
if a chain of conflicts leads from one to the other. -/
theorem LockGroups.partition_spec {groups : LockGroups} (hnodup : (labels.map (·.label)).Nodup)
    (h : LockGroups.empty.partition labels = (groups, none)) :
    (∀ label, (groups.groupOf? label).isSome ↔
      ∃ isWrite global, TouchedBy labels label isWrite global) ∧
    ∀ label other group otherGroup, groups.groupOf? label = some group →
      groups.groupOf? other = some otherGroup →
        (group = otherGroup ↔ Chained (TouchedBy labels) label other) := by
  obtain ⟨hdescends, hjoined⟩ := Conflicts.joined_ofLabels labels
  have hregisters := registers_of_registerAll h
  obtain ⟨all, _, hnumbers, honly⟩ :=
    numberLabels_spec hdescends (.refl hdescends) [] 0 labels
  have htouched : ∀ label group, groups.groupOf? label = some group →
      ∃ accesses ∈ labels, accesses.label = label ∧ accesses.touchesGlobals = true := by
    intro label group hgroup
    rcases hregisters.only label group hgroup with hgroup | ⟨entry, hentry, hlabel⟩
    · simp [LockGroups.empty, LockGroups.groupOf?] at hgroup
    · exact ⟨entry.1, (honly entry hentry).1, hlabel, (honly entry hentry).2⟩
  refine ⟨fun label => ⟨fun hsome => ?_, ?_⟩, ?_⟩
  · obtain ⟨group, hgroup⟩ := Option.isSome_iff_exists.1 hsome
    obtain ⟨accesses, hmem, hlabel, htouches⟩ := htouched label group hgroup
    obtain ⟨isWrite, global, hglobal⟩ := touchesGlobals_iff.1 htouches
    exact ⟨isWrite, global, accesses, hmem, hlabel, hglobal⟩
  · intro h
    rcases h with ⟨isWrite, global, accesses, hmem, rfl, hglobal⟩
    obtain ⟨i, hi⟩ := List.mem_iff_getElem?.1 hmem
    obtain ⟨root, _, _, hentry⟩ :=
      hnumbers i accesses hi (touchesGlobals_iff.2 ⟨isWrite, global, hglobal⟩)
    rw [hregisters.adds _ hentry]
    rfl
  · intro label other group otherGroup hgroup hotherGroup
    obtain ⟨accesses, hmem, rfl, htouches⟩ := htouched label group hgroup
    obtain ⟨others, hothers, rfl, hotherTouches⟩ := htouched other otherGroup hotherGroup
    obtain ⟨i, hi⟩ := List.mem_iff_getElem?.1 hmem
    obtain ⟨j, hj⟩ := List.mem_iff_getElem?.1 hothers
    obtain ⟨root, hroot, hclimbs, hentry⟩ := hnumbers i accesses hi htouches
    obtain ⟨otherRoot, _, hotherClimbs, hotherEntry⟩ := hnumbers j others hj hotherTouches
    rw [Nat.zero_add] at hclimbs hotherClimbs
    have hadded := hregisters.adds _ hentry
    have hotherAdded := hregisters.adds _ hotherEntry
    rw [hgroup] at hadded
    rw [hotherGroup] at hotherAdded
    cases hadded
    cases hotherAdded
    rw [chained_iff hnodup hi hj, ← hjoined, LockGroup.mk.injEq, List.idxOf_inj hroot]
    constructor
    · rintro rfl
      exact ⟨root, hclimbs, hotherClimbs⟩
    · intro h
      rcases h with ⟨top, htop, hotherTop⟩
      rw [hclimbs.unique htop, hotherClimbs.unique hotherTop]

/-- What the groups of a partition use is touched by one of the labels. -/
theorem LockGroups.touched_of_partition {groups : LockGroups} {group : LockGroup} {global : Uid}
    (h : LockGroups.empty.partition labels = (groups, none)) (huses : groups.Uses group global) :
    ∃ accesses ∈ labels, ∃ isWrite, global ∈ accesses.touched isWrite := by
  obtain ⟨hdescends, _⟩ := Conflicts.joined_ofLabels labels
  obtain ⟨all, _, _, honly⟩ := numberLabels_spec hdescends (.refl hdescends) [] 0 labels
  rcases touched_of_registerAll h huses with hempty | ⟨entry, hmem, isWrite, htouched⟩
  · rcases hempty with hempty | hempty <;> cases hempty
  · exact ⟨entry.1, (honly entry hmem).1, isWrite, htouched⟩

end Partition

end PlusCalGo
