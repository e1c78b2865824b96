import Mathlib.Data.Nat.Find
import PlusCalGo.Proofs.Locking.Order

/-!
# Labels that clash

A label that has a group already clashes with itself, and a partition stops there. What it has
registered by then are the labels in front, under the numbers they would have had in the end:
components are joined for the whole list first and numbered by their first labels.
-/

namespace PlusCalGo

/-! ## Ranks of components -/

namespace Conflicts

variable {labels : List LabelAccesses} {index root : Nat}

theorem chained_iff_find (labels : List LabelAccesses) (m n : Nat) :
    ((ofLabels labels).forest.find m).2 = ((ofLabels labels).forest.find n).2 ↔
      Chained (TouchedAt labels) m n := by
  obtain ⟨hdescends, hjoined⟩ := joined_ofLabels labels
  rcases hfindM : (ofLabels labels).forest.find m with ⟨_, rootM⟩
  rcases hfindN : (ofLabels labels).forest.find n with ⟨_, rootN⟩
  have hm := (Forest.find_spec hdescends hfindM).1
  have hn := (Forest.find_spec hdescends hfindN).1
  rw [← hjoined]
  constructor
  · rintro rfl
    exact ⟨rootM, hm, hn⟩
  · rintro ⟨top, htopM, htopN⟩
    exact (hm.unique htopM).trans (hn.unique htopN).symm

instance (labels : List LabelAccesses) : DecidableRel (Chained (TouchedAt labels)) :=
  fun m n => decidable_of_iff _ (chained_iff_find labels m n)

/-- The first label that a chain of conflicts leads to. -/
def leader (labels : List LabelAccesses) (index : Nat) : Nat :=
  ((List.range index).find? fun first => Chained (TouchedAt labels) first index).getD index

/-- A component begins at the label: it touches a variable, and is the first to be reached by chains
of conflicts from it. -/
def Leads (labels : List LabelAccesses) (index : Nat) : Prop :=
  labels[index]?.any LabelAccesses.touchesGlobals = true ∧ leader labels index = index

instance (labels : List LabelAccesses) : DecidablePred (Leads labels) :=
  fun _ => inferInstanceAs (Decidable (_ ∧ _))

/-- How many components begin before the one of the label. -/
def rank (labels : List LabelAccesses) (index : Nat) : Nat :=
  (List.range (leader labels index)).countP (Leads labels ·)

theorem leader_spec (labels : List LabelAccesses) (index : Nat) :
    leader labels index ≤ index ∧ Chained (TouchedAt labels) (leader labels index) index ∧
      ∀ other < leader labels index, ¬ Chained (TouchedAt labels) other index := by
  unfold leader
  cases hfind : (List.range index).find? fun first => Chained (TouchedAt labels) first index with
  | none =>
    refine ⟨Nat.le_refl index, .refl, ?_⟩
    simpa using List.find?_range_eq_none.1 hfind
  | some first =>
    have hfirst := List.find?_range_eq_some.1 hfind
    simp only [decide_eq_true_eq, List.mem_range, Bool.not_eq_true', decide_eq_false_iff_not]
      at hfirst
    exact ⟨Nat.le_of_lt hfirst.2.1, hfirst.1, hfirst.2.2⟩

theorem leader_le (labels : List LabelAccesses) (index : Nat) : leader labels index ≤ index :=
  (leader_spec labels index).1

theorem chained_leader (labels : List LabelAccesses) (index : Nat) :
    Chained (TouchedAt labels) (leader labels index) index :=
  (leader_spec labels index).2.1

theorem leader_le_of_chained {other : Nat} (h : Chained (TouchedAt labels) other index) :
    leader labels index ≤ other := by
  by_contra hlt
  exact (leader_spec labels index).2.2 other (by omega) h

theorem leader_congr {other : Nat} (h : Chained (TouchedAt labels) index other) :
    leader labels index = leader labels other := by
  apply Nat.le_antisymm
  · exact leader_le_of_chained ((chained_leader labels other).trans h.symm)
  · exact leader_le_of_chained ((chained_leader labels index).trans h)

/-- The root that a label climbs to is the first label of its component. -/
theorem leader_eq (h : (ofLabels labels).forest.Climbs index root) :
    leader labels index = root := by
  obtain ⟨hdescends, hjoined⟩ := joined_ofLabels labels
  have hroot : Chained (TouchedAt labels) root index :=
    (hjoined root index).1 ⟨root, .root h.isRoot, h⟩
  obtain ⟨top, hleader, htop⟩ := (hjoined _ _).2 (chained_leader labels index)
  rw [← h.unique htop] at hleader
  exact Nat.le_antisymm (leader_le_of_chained hroot) (hleader.le hdescends)

theorem any_touchesGlobals :
    labels[index]?.any LabelAccesses.touchesGlobals = true ↔
      ∃ isWrite global, TouchedAt labels index isWrite global := by
  rw [Option.any_eq_true]
  constructor
  · rintro ⟨accesses, hlabel, htouches⟩
    obtain ⟨isWrite, global, hmem⟩ := touchesGlobals_iff.1 htouches
    exact ⟨isWrite, global, accesses, hlabel, hmem⟩
  · rintro ⟨isWrite, global, accesses, hlabel, hmem⟩
    exact ⟨accesses, hlabel, touchesGlobals_iff.2 ⟨isWrite, global, hmem⟩⟩

/-- The first label of a component that touches a variable touches one itself. -/
theorem leads_leader (h : labels[index]?.any LabelAccesses.touchesGlobals = true) :
    Leads labels (leader labels index) := by
  have hchained := chained_leader labels index
  refine ⟨?_, leader_congr hchained⟩
  rcases Relation.ReflTransGen.cases_head hchained with hsame | ⟨next, hconflict, _⟩
  · rw [hsame]
    exact h
  · exact any_touchesGlobals.2 hconflict.touches

/-- The labels from a place on that touch a variable, each under the rank of its component. -/
def ranked (labels : List LabelAccesses) (index : Nat) (rest : List LabelAccesses) :
    List (LabelAccesses × LockGroup) :=
  ((rest.zipIdx index).filter (·.1.touchesGlobals)).map fun (accesses, place) =>
    (accesses, ⟨rank labels place⟩)

theorem ranked_append (first second : List LabelAccesses) :
    ranked labels index (first ++ second) =
      ranked labels index first ++ ranked labels (index + first.length) second := by
  simp [ranked, List.zipIdx_append]

theorem ranked_singleton (accesses : LabelAccesses) :
    ranked labels index [accesses] =
      if accesses.touchesGlobals then [(accesses, ⟨rank labels index⟩)] else [] := by
  by_cases h : accesses.touchesGlobals = true <;> simp [ranked, h]

theorem mem_ranked_take {count : Nat} {entry : LabelAccesses × LockGroup} :
    entry ∈ ranked labels 0 (labels.take count) ↔ ∃ place < count, ∃ accesses,
      labels[place]? = some accesses ∧ accesses.touchesGlobals = true ∧
        entry = (accesses, ⟨rank labels place⟩) := by
  simp only [ranked, List.mem_map, List.mem_filter, Prod.exists, List.mem_zipIdx_iff_getElem?,
    List.getElem?_take]
  constructor
  · rintro ⟨accesses, place, ⟨hlabel, htouches⟩, rfl⟩
    by_cases hplace : place < count
    · rw [if_pos hplace] at hlabel
      exact ⟨place, hplace, accesses, hlabel, htouches, rfl⟩
    · simp [hplace] at hlabel
  · rintro ⟨place, hplace, accesses, hlabel, htouches, rfl⟩
    refine ⟨accesses, place, ⟨?_, htouches⟩, rfl⟩
    rw [if_pos hplace]
    exact hlabel

/-! ## Numbers are ranks -/

/-- The roots met in front of a place, in the order of their labels. -/
private def leads (labels : List LabelAccesses) (index : Nat) : List Nat :=
  (List.range index).filter (Leads labels ·)

private theorem mem_leads {lead : Nat} :
    lead ∈ leads labels index ↔ lead < index ∧ Leads labels lead := by
  simp [leads]

private theorem leads_succ :
    leads labels (index + 1) =
      leads labels index ++ if Leads labels index then [index] else [] := by
  by_cases h : Leads labels index <;> simp [leads, List.range_succ, h]

/-- A root is as far behind in the list as there are roots before it. -/
private theorem idxOf_leads (hlead : Leads labels root) (hlt : root < index) :
    (leads labels index).idxOf root = (List.range root).countP (Leads labels ·) := by
  induction index with
  | zero => omega
  | succ index ih =>
    rw [leads_succ]
    by_cases hlast : root = index
    · have hnew : root ∉ leads labels index := fun hmem => by
        have hbefore := (mem_leads.1 hmem).1
        omega
      rw [hlast] at hlead hnew ⊢
      rw [List.idxOf_append_of_notMem hnew, if_pos hlead, List.idxOf_cons_self, Nat.add_zero,
        List.countP_eq_length_filter]
      rfl
    · have hold : root ∈ leads labels index := mem_leads.2 ⟨by omega, hlead⟩
      rw [List.idxOf_append_of_mem hold]
      exact ih (by omega)

/-- A label that touches a variable adds its root to those met so far. -/
private theorem leads_of_touches
    (htouches : labels[index]?.any LabelAccesses.touchesGlobals = true) :
    (if leader labels index ∈ leads labels index then leads labels index
      else leads labels index ++ [leader labels index]) = leads labels (index + 1) := by
  rw [leads_succ]
  by_cases hfirst : leader labels index = index
  · have hnew : index ∉ leads labels index := fun hmem => by
      have hbefore := (mem_leads.1 hmem).1
      omega
    rw [hfirst, if_neg hnew, if_pos ⟨htouches, hfirst⟩]
  · have hle := leader_le labels index
    have hold : leader labels index ∈ leads labels index :=
      mem_leads.2 ⟨by omega, leads_leader htouches⟩
    have hfollows : ¬ Leads labels index := fun hlead => hfirst hlead.2
    rw [if_pos hold, if_neg hfollows, List.append_nil]

/-- Labels behind a place are numbered by rank, since the roots met before are those in front. -/
theorem numberLabels_eq {forest : Forest} {front rest : List LabelAccesses}
    (hsame : (ofLabels labels).forest.SameRoots forest) (hlabels : labels = front ++ rest) :
    numberLabels forest (leads labels front.length) front.length rest =
      ranked labels front.length rest := by
  induction rest generalizing forest front with
  | nil => rfl
  | cons accesses rest ih =>
    have hdescends := (joined_ofLabels labels).1
    have hplace : labels[front.length]? = some accesses := by simp [hlabels]
    have hbehind : labels = (front ++ [accesses]) ++ rest := by simp [hlabels]
    have hlength : (front ++ [accesses]).length = front.length + 1 := by simp
    by_cases htouches : accesses.touchesGlobals = true
    · have hany : labels[front.length]?.any LabelAccesses.touchesGlobals = true := by
        simpa [hplace] using htouches
      rcases hfind : forest.find front.length with ⟨next, root⟩
      obtain ⟨hclimbs, hnext⟩ := Forest.find_spec hsame.1 hfind
      have hroot : root = leader labels front.length :=
        (leader_eq ((hsame.climbs_iff hdescends).1 hclimbs)).symm
      have hrest := ih (hsame.trans hnext) hbehind
      rw [hlength] at hrest
      have hnumber : (leads labels (front.length + 1)).idxOf root = rank labels front.length := by
        rw [hroot]
        exact idxOf_leads (leads_leader hany) (Nat.lt_succ_of_le (leader_le labels _))
      simp only [numberLabels, if_pos htouches, hfind]
      rw [hroot, leads_of_touches hany, hrest, ← hroot, hnumber]
      simp [ranked, htouches]
    · have hskipped : ¬ Leads labels front.length := fun hlead => by
        have hany := hlead.1
        rw [hplace] at hany
        exact htouches hany
      have hsucc : leads labels (front.length + 1) = leads labels front.length := by
        rw [leads_succ, if_neg hskipped, List.append_nil]
      have hrest := ih hsame hbehind
      rw [hlength, hsucc] at hrest
      simp only [numberLabels, if_neg htouches]
      rw [hrest]
      simp [ranked, htouches]

theorem lockGroupsOf_eq (labels : List LabelAccesses) :
    lockGroupsOf labels = ranked labels 0 labels := by
  have hsame : (ofLabels labels).forest.SameRoots (ofLabels labels).forest :=
    .refl (joined_ofLabels labels).1
  exact numberLabels_eq hsame (List.nil_append labels).symm

end Conflicts

open Conflicts

namespace LockGroups

/-! ## Registering in front of a clash -/

section Registering

variable {groups between after : LockGroups} {accesses : LabelAccesses} {group old : LockGroup}
  {entries rest : List (LabelAccesses × LockGroup)}

/-- Once a front is registered, the others follow. -/
theorem registerAll_append (h : groups.registerAll entries = (between, none)) :
    groups.registerAll (entries ++ rest) = between.registerAll rest := by
  induction entries generalizing groups with
  | nil =>
    cases h
    rfl
  | cons entry entries ih =>
    obtain ⟨accesses, group⟩ := entry
    simp only [List.cons_append, registerAll] at h ⊢
    cases hregister : groups.register accesses group with
    | error problem => simp [hregister] at h
    | ok next =>
      rw [hregister] at h
      exact ih h

/-- A label that has a group stops the registration, and nothing of it is kept. -/
theorem registerAll_of_grouped (h : groups.groupOf? accesses.label = some old) :
    groups.registerAll ((accesses, group) :: rest) =
      (groups, some (.of (.labelRegrouped accesses.label old group))) := by
  have hregister : groups.register accesses group =
      .error (.of (.labelRegrouped accesses.label old group)) := by
    simp [register, addLabel, h, bind, Except.bind]
  rw [registerAll, hregister]

end Registering

/-- A registry holds what another one does, and the labels of the first places that touch a variable
with all that they touch, under the ranks of their components. -/
structure Extends (groups after : LockGroups) (labels : List LabelAccesses) (count : Nat) :
    Prop where
  groupOf? : ∀ label group, after.groupOf? label = some group ↔
    groups.groupOf? label = some group ∨ ∃ place < count, ∃ accesses,
      labels[place]? = some accesses ∧ accesses.touchesGlobals = true ∧ accesses.label = label ∧
        group = ⟨rank labels place⟩
  readsOf : ∀ group global, global ∈ after.readsOf group ↔ global ∈ groups.readsOf group ∨
    ∃ place < count, ∃ accesses, labels[place]? = some accesses ∧ group = ⟨rank labels place⟩ ∧
      global ∈ accesses.reads
  writesOf : ∀ group global, global ∈ after.writesOf group ↔ global ∈ groups.writesOf group ∨
    ∃ place < count, ∃ accesses, labels[place]? = some accesses ∧ group = ⟨rank labels place⟩ ∧
      global ∈ accesses.writes

/-- The label at the place touches a variable, and has a group by the time the labels in front of it
are registered. -/
def Clashes (groups : LockGroups) (labels : List LabelAccesses) (place : Nat) : Prop :=
  ∃ accesses, labels[place]? = some accesses ∧ accesses.touchesGlobals = true ∧
    ((groups.groupOf? accesses.label).isSome ∨ ∃ earlier < place, ∃ other,
      labels[earlier]? = some other ∧ other.touchesGlobals = true ∧ other.label = accesses.label)

instance (groups : LockGroups) (labels : List LabelAccesses) :
    DecidablePred (groups.Clashes labels) :=
  fun place => inferInstanceAs (Decidable (∃ accesses, labels[place]? = some accesses ∧ _))

section Partition

variable {groups between after : LockGroups} {labels : List LabelAccesses} {place count : Nat}
  {accesses : LabelAccesses}

/-- What a label reads or writes is registered with it, for then the label touches something. -/
private theorem mem_flatMap_ranked {set : LabelAccesses → UidSet}
    (hset : ∀ accesses global, global ∈ set accesses → accesses.touchesGlobals = true)
    {group : LockGroup} {global : Uid} :
    (group, global) ∈ (ranked labels 0 (labels.take count)).flatMap
        (fun entry => (set entry.1).toList.map (entry.2, ·)) ↔
      ∃ place < count, ∃ accesses, labels[place]? = some accesses ∧ group = ⟨rank labels place⟩ ∧
        global ∈ set accesses := by
  simp only [List.mem_flatMap, List.mem_map, Prod.mk.injEq, mem_ranked_take]
  constructor
  · rintro ⟨_, ⟨place, hplace, accesses, hlabel, _, rfl⟩, _, hglobal, rfl, rfl⟩
    exact ⟨place, hplace, accesses, hlabel, rfl, hglobal⟩
  · rintro ⟨place, hplace, accesses, hlabel, rfl, hglobal⟩
    have htouches := hset accesses global hglobal
    exact ⟨_, ⟨place, hplace, accesses, hlabel, htouches, rfl⟩, global, hglobal, rfl, rfl⟩

/-- Registering the first labels adds just these. -/
theorem extends_of_registerAll
    (h : groups.registerAll (ranked labels 0 (labels.take count)) = (after, none)) :
    groups.Extends after labels count := by
  have hregisters := registers_of_registerAll h
  obtain ⟨_, hreads, hwrites⟩ := registerAll_ok h
  refine ⟨?_, ?_, ?_⟩
  · intro label group
    constructor
    · intro hgroup
      rcases hregisters.only label group hgroup with hold | ⟨entry, hentry, rfl⟩
      · exact .inl hold
      · have hadded := hregisters.adds entry hentry
        rw [hgroup] at hadded
        cases hadded
        obtain ⟨place, hplace, accesses, hlabel, htouches, rfl⟩ := mem_ranked_take.1 hentry
        exact .inr ⟨place, hplace, accesses, hlabel, htouches, rfl, rfl⟩
    · rintro (hold | ⟨place, hplace, accesses, hlabel, htouches, rfl, rfl⟩)
      · exact hregisters.keeps label group hold
      · exact hregisters.adds _
          (mem_ranked_take.2 ⟨place, hplace, accesses, hlabel, htouches, rfl⟩)
  · intro group global
    have htouches (accesses : LabelAccesses) (global : Uid) (hread : global ∈ accesses.reads) :
        accesses.touchesGlobals = true := touchesGlobals_iff.2 ⟨false, global, hread⟩
    rw [mem_readsOf, mem_readsOf, hreads, List.mem_append, mem_flatMap_ranked htouches]
  · intro group global
    have htouches (accesses : LabelAccesses) (global : Uid) (hwrite : global ∈ accesses.writes) :
        accesses.touchesGlobals = true := touchesGlobals_iff.2 ⟨true, global, hwrite⟩
    rw [mem_writesOf, mem_writesOf, hwrites, List.mem_append, mem_flatMap_ranked htouches]

/-- Once the labels in front are registered, a label clashes if it has a group. -/
theorem Extends.isSome_iff (h : groups.Extends between labels place)
    (hlabel : labels[place]? = some accesses) (htouches : accesses.touchesGlobals = true) :
    (between.groupOf? accesses.label).isSome ↔ groups.Clashes labels place := by
  rw [Option.isSome_iff_exists]
  constructor
  · rintro ⟨group, hgroup⟩
    refine ⟨accesses, hlabel, htouches, ?_⟩
    rcases (h.groupOf? _ _).1 hgroup with hold | ⟨earlier, hlt, other, hother, htouched, hsame, _⟩
    · exact .inl (Option.isSome_of_eq_some hold)
    · exact .inr ⟨earlier, hlt, other, hother, htouched, hsame⟩
  · rintro ⟨same, hsame, _, hclash⟩
    rw [hlabel] at hsame
    cases hsame
    rcases hclash with hold | ⟨earlier, hlt, other, hother, htouched, hsame⟩
    · obtain ⟨group, hgroup⟩ := Option.isSome_iff_exists.1 hold
      exact ⟨group, (h.groupOf? _ _).2 (.inl hgroup)⟩
    · exact ⟨_, (h.groupOf? _ _).2 (.inr ⟨earlier, hlt, other, hother, htouched, hsame, rfl⟩)⟩

/-- Labels up to the first clash are registered. -/
theorem registerAll_of_not_clashes (h : ∀ place < count, ¬ groups.Clashes labels place) :
    ∃ after, groups.registerAll (ranked labels 0 (labels.take count)) = (after, none) := by
  induction count with
  | zero => exact ⟨groups, rfl⟩
  | succ count ih =>
    obtain ⟨between, hfront⟩ := ih fun place hplace => h place (by omega)
    by_cases hlast : count < labels.length
    · have hlabel : labels[count]? = some labels[count] := List.getElem?_eq_getElem hlast
      have hlength : (labels.take count).length = count := by simp; omega
      have htake : labels.take (count + 1) = labels.take count ++ [labels[count]] :=
        List.take_succ_eq_append_getElem hlast
      rw [htake, ranked_append, registerAll_append hfront, Nat.zero_add, hlength, ranked_singleton]
      by_cases htouches : labels[count].touchesGlobals = true
      · have hnone : between.groupOf? labels[count].label = none := by
          rw [← Option.not_isSome_iff_eq_none,
            (extends_of_registerAll hfront).isSome_iff hlabel htouches]
          exact h count (Nat.lt_succ_self count)
        obtain ⟨after, hafter⟩ := register_of_none ⟨rank labels count⟩ hnone
        refine ⟨after, ?_⟩
        simp [htouches, registerAll, hafter]
      · refine ⟨between, ?_⟩
        simp [htouches, registerAll]
    · have hall : labels.take (count + 1) = labels.take count := by
        rw [List.take_of_length_le (by omega), List.take_of_length_le (by omega)]
      rw [hall]
      exact ⟨between, hfront⟩

/-- Without a clash all labels are registered. -/
theorem partition_of_not_clashes (h : ∀ place, ¬ groups.Clashes labels place) :
    ∃ after, groups.partition labels = (after, none) ∧
      groups.Extends after labels labels.length := by
  have hbefore : ∀ place < labels.length, ¬ groups.Clashes labels place := fun place _ => h place
  obtain ⟨after, hafter⟩ := registerAll_of_not_clashes hbefore
  refine ⟨after, ?_, extends_of_registerAll hafter⟩
  rw [List.take_length] at hafter
  rw [partition, lockGroupsOf_eq, hafter]

/-- At the first clash a partition stops. -/
theorem partition_of_clashes (hclash : groups.Clashes labels place)
    (hfirst : ∀ earlier < place, ¬ groups.Clashes labels earlier) :
    ∃ accesses old after, labels[place]? = some accesses ∧
      after.groupOf? accesses.label = some old ∧
      groups.partition labels =
        (after, some (.of (.labelRegrouped accesses.label old ⟨rank labels place⟩))) ∧
      groups.Extends after labels place := by
  obtain ⟨after, hfront⟩ := registerAll_of_not_clashes hfirst
  have hafter := extends_of_registerAll hfront
  obtain ⟨accesses, hlabel, htouches, _⟩ := id hclash
  obtain ⟨old, hold⟩ := Option.isSome_iff_exists.1 ((hafter.isSome_iff hlabel htouches).2 hclash)
  refine ⟨accesses, old, after, hlabel, hold, ?_, hafter⟩
  obtain ⟨hplace, hget⟩ := List.getElem?_eq_some_iff.1 hlabel
  have hsplit : labels = labels.take place ++ [accesses] ++ labels.drop (place + 1) := by
    rw [← hget, ← List.take_succ_eq_append_getElem hplace, List.take_append_drop]
  have hlength : (labels.take place).length = place := by simp; omega
  have hranked : ranked labels 0 labels = ranked labels 0 (labels.take place) ++
      ((accesses, ⟨rank labels place⟩) ::
        ranked labels (place + 1) (labels.drop (place + 1))) := by
    refine (congrArg (ranked labels 0) hsplit).trans ?_
    rw [ranked_append, ranked_append, ranked_singleton, if_pos htouches, List.length_append,
      List.length_singleton, hlength, Nat.zero_add, Nat.zero_add, List.append_assoc]
    rfl
  rw [partition, lockGroupsOf_eq, hranked, registerAll_append hfront, registerAll_of_grouped hold]

/-- A partition fails exactly if some label clashes. Then it stops at the first clash, and the
registry holds just the labels in front of it besides what it held before; else it holds all
labels. -/
theorem partition_stops (groups : LockGroups) (labels : List LabelAccesses) :
    ((groups.partition labels).2.isSome ↔ ∃ place, groups.Clashes labels place) ∧
    (∀ place, groups.Clashes labels place → (∀ earlier < place, ¬ groups.Clashes labels earlier) →
      ∃ accesses old after, labels[place]? = some accesses ∧
        after.groupOf? accesses.label = some old ∧
        groups.partition labels =
          (after, some (.of (.labelRegrouped accesses.label old ⟨rank labels place⟩))) ∧
        groups.Extends after labels place) ∧
    ((∀ place, ¬ groups.Clashes labels place) → ∃ after,
      groups.partition labels = (after, none) ∧ groups.Extends after labels labels.length) := by
  refine ⟨⟨?_, ?_⟩, fun place => partition_of_clashes, partition_of_not_clashes⟩
  · intro hfails
    by_contra hnone
    obtain ⟨after, hpartition, _⟩ :=
      partition_of_not_clashes fun place hclash => hnone ⟨place, hclash⟩
    simp [hpartition] at hfails
  · intro hsome
    classical
    obtain ⟨_, _, _, _, _, hpartition, _⟩ :=
      partition_of_clashes (Nat.find_spec hsome) fun _ => Nat.find_min hsome
    rw [hpartition]
    rfl

end Partition

/-- The label `d` is never reached, but joins `a` and `c`. The label behind `c` is in the registry
already. -/
theorem partition_stops_joined :
    let groups : LockGroups := ⟨[(⟨7⟩, ⟨0⟩)], [(⟨0⟩, ⟨14⟩)], []⟩
    let labels : List LabelAccesses :=
      [⟨⟨1⟩, "a", .empty, .ofList [⟨11⟩]⟩, ⟨⟨2⟩, "b", .ofList [⟨13⟩], .empty⟩,
        ⟨⟨3⟩, "c", .ofList [⟨12⟩], .empty⟩, ⟨⟨7⟩, "again", .ofList [⟨13⟩], .empty⟩,
        ⟨⟨4⟩, "d", .ofList [⟨11⟩], .ofList [⟨12⟩]⟩]
    groups.Clashes labels 3 ∧ (∀ earlier < 3, ¬ groups.Clashes labels earlier) ∧
      ∃ after, groups.partition labels = (after, some (.of (.labelRegrouped ⟨7⟩ ⟨0⟩ ⟨2⟩))) ∧
        groups.Extends after labels 3 ∧ after.groupOf? ⟨1⟩ = some ⟨0⟩ ∧
        after.groupOf? ⟨2⟩ = some ⟨1⟩ ∧ after.groupOf? ⟨3⟩ = some ⟨0⟩ ∧
        after.groupOf? ⟨4⟩ = none := by
  intro groups labels
  have hclash : groups.Clashes labels 3 := by decide
  have hfirst : ∀ earlier < 3, ¬ groups.Clashes labels earlier := by decide
  obtain ⟨accesses, old, after, hlabel, hold, hpartition, hafter⟩ :=
    (partition_stops groups labels).2.1 3 hclash hfirst
  cases hlabel
  obtain ⟨hrankA, hrankB, hrankC, hrank⟩ :
      rank labels 0 = 0 ∧ rank labels 1 = 1 ∧ rank labels 2 = 0 ∧ rank labels 3 = 2 := by
    decide +kernel
  have hregistered : after.groupOf? ⟨7⟩ = some ⟨0⟩ := (hafter.groupOf? _ _).2 (.inl rfl)
  have ha : after.groupOf? ⟨1⟩ = some ⟨rank labels 0⟩ :=
    (hafter.groupOf? _ _).2 (.inr ⟨0, by decide, _, rfl, by decide, rfl, rfl⟩)
  have hb : after.groupOf? ⟨2⟩ = some ⟨rank labels 1⟩ :=
    (hafter.groupOf? _ _).2 (.inr ⟨1, by decide, _, rfl, by decide, rfl, rfl⟩)
  have hc : after.groupOf? ⟨3⟩ = some ⟨rank labels 2⟩ :=
    (hafter.groupOf? _ _).2 (.inr ⟨2, by decide, _, rfl, by decide, rfl, rfl⟩)
  have hd : after.groupOf? ⟨4⟩ = none := by
    rw [Option.eq_none_iff_forall_ne_some]
    intro group hgroup
    rcases (hafter.groupOf? _ _).1 hgroup with hbefore | ⟨place, hplace, other, hother, _, hsame, _⟩
    · cases hbefore
    · have hnone : ∀ place < 3, labels[place]?.map (·.label) ≠ some ⟨4⟩ := by decide
      exact hnone place hplace (by rw [hother, Option.map_some, hsame])
  rw [hregistered] at hold
  cases hold
  rw [hrank] at hpartition
  rw [hrankA] at ha
  rw [hrankB] at hb
  rw [hrankC] at hc
  exact ⟨hclash, hfirst, after, hpartition, hafter, ha, hb, hc, hd⟩

end LockGroups

end PlusCalGo
