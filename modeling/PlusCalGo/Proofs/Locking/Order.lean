import PlusCalGo.Proofs.Locking.Numbering

/-!
# Groups in the order of their labels

Labels that differ can always be partitioned, and the groups are numbered as they come: in front of
a label of a group there is a label of every group with a smaller number.
-/

namespace PlusCalGo

/-- In front of an item of a group there are items of all groups with smaller numbers. -/
def InOrder {α : Type} (group? : α → Option LockGroup) (items : List α) : Prop :=
  ∀ front item back, items = front ++ item :: back → ∀ group, group? item = some group →
    ∀ number < group.index, ∃ earlier ∈ front, group? earlier = some ⟨number⟩

/-! ## Roots -/

section Roots

variable {roots : List Nat} {root number : Nat}

private theorem idxOf_added :
    (if root ∈ roots then roots else roots ++ [root]).idxOf root ≤ roots.length := by
  by_cases h : root ∈ roots
  · rw [if_pos h]
    exact List.idxOf_le_length
  · rw [if_neg h, List.idxOf_append_of_notMem h]
    simp

/-- Only the number of the root can be new. -/
private theorem lt_length_added
    (h : number < (if root ∈ roots then roots else roots ++ [root]).length) :
    number < roots.length ∨
      number = (if root ∈ roots then roots else roots ++ [root]).idxOf root := by
  by_cases hroot : root ∈ roots
  · rw [if_pos hroot] at h
    exact .inl h
  · have hindex : (roots ++ [root]).idxOf root = roots.length := by
      rw [List.idxOf_append_of_notMem hroot]
      simp
    rw [if_neg hroot] at h ⊢
    rw [hindex]
    simp at h
    omega

end Roots

/-! ## Numbering -/

theorem numberLabels_sublist (forest : Forest) (roots : List Nat) (index : Nat)
    (labels : List LabelAccesses) :
    ((numberLabels forest roots index labels).map (·.1)).Sublist labels := by
  induction labels generalizing forest roots index with
  | nil => exact List.nil_sublist _
  | cons accesses rest ih =>
    by_cases htouches : accesses.touchesGlobals = true
    · simp only [numberLabels, if_pos htouches, List.map_cons]
      exact (ih _ _ _).cons_cons accesses
    · simp only [numberLabels, if_neg htouches]
      exact (ih _ _ _).cons accesses

/-- The numbers that are not given out yet when numbering begins are given out in order. -/
theorem numberLabels_inOrder (group? : LabelAccesses → Option LockGroup) (forest : Forest)
    (roots : List Nat) (index : Nat) (labels : List LabelAccesses)
    (hadds : ∀ entry ∈ numberLabels forest roots index labels, group? entry.1 = some entry.2)
    (hskips : ∀ accesses ∈ labels, ¬ accesses.touchesGlobals = true → group? accesses = none) :
    ∀ front accesses back, labels = front ++ accesses :: back → ∀ group,
      group? accesses = some group → ∀ number < group.index,
        number < roots.length ∨ ∃ earlier ∈ front, group? earlier = some ⟨number⟩ := by
  induction labels generalizing forest roots index with
  | nil => simp
  | cons first rest ih =>
    have hskipsRest := fun accesses hmem => hskips accesses (List.mem_cons_of_mem first hmem)
    intro front accesses back hlabels group hgroup number hnumber
    by_cases htouches : first.touchesGlobals = true
    · simp only [numberLabels, if_pos htouches] at hadds
      have hfirst := hadds _ List.mem_cons_self
      have haddsRest := fun entry hmem => hadds entry (List.mem_cons_of_mem _ hmem)
      have hlater := ih _ _ _ haddsRest hskipsRest
      cases front with
      | nil =>
        cases hlabels
        rw [hfirst] at hgroup
        cases hgroup
        exact .inl (Nat.lt_of_lt_of_le hnumber idxOf_added)
      | cons _ front =>
        cases hlabels
        rcases hlater front accesses back rfl group hgroup number hnumber with hgiven | hearlier
        · rcases lt_length_added hgiven with hgiven | rfl
          · exact .inl hgiven
          · exact .inr ⟨first, List.mem_cons_self, hfirst⟩
        · obtain ⟨earlier, hmem, hearlier⟩ := hearlier
          exact .inr ⟨earlier, List.mem_cons_of_mem first hmem, hearlier⟩
    · have hnone := hskips first List.mem_cons_self htouches
      simp only [numberLabels, if_neg htouches] at hadds
      cases front with
      | nil =>
        cases hlabels
        rw [hnone] at hgroup
        simp at hgroup
      | cons _ front =>
        cases hlabels
        rcases ih _ _ _ hadds hskipsRest front accesses back rfl group hgroup number hnumber with
          hgiven | ⟨earlier, hmem, hearlier⟩
        · exact .inl hgiven
        · exact .inr ⟨earlier, List.mem_cons_of_mem first hmem, hearlier⟩

/-! ## Partitions -/

namespace LockGroups

theorem register_of_none {groups : LockGroups} {accesses : LabelAccesses} (group : LockGroup)
    (h : groups.groupOf? accesses.label = none) :
    ∃ after, groups.register accesses group = .ok after := by
  simp [register, addLabel, h, bind, Except.bind, pure, Except.pure]

/-- Labels that differ and have no group yet are all added. -/
theorem registerAll_of_nodup {groups : LockGroups} (entries : List (LabelAccesses × LockGroup))
    (hnodup : (entries.map (·.1.label)).Nodup)
    (hfresh : ∀ entry ∈ entries, groups.groupOf? entry.1.label = none) :
    ∃ after, groups.registerAll entries = (after, none) := by
  induction entries generalizing groups with
  | nil => exact ⟨groups, rfl⟩
  | cons entry rest ih =>
    obtain ⟨accesses, group⟩ := entry
    obtain ⟨hdiffers, hnodup⟩ := List.nodup_cons.1 hnodup
    obtain ⟨between, hregister⟩ := register_of_none group (hfresh _ List.mem_cons_self)
    have hregisters := registers_of_register hregister
    simp only [registerAll, hregister]
    refine ih hnodup ?_
    intro other hother
    by_contra hgroup
    obtain ⟨old, hold⟩ := Option.ne_none_iff_exists'.1 hgroup
    rcases hregisters.only _ _ hold with hbefore | ⟨added, hadded, hlabel⟩
    · rw [hfresh other (List.mem_cons_of_mem _ hother)] at hbefore
      simp at hbefore
    · rw [List.mem_singleton.1 hadded] at hlabel
      exact hdiffers (List.mem_map.2 ⟨other, hother, hlabel.symm⟩)

variable {labels : List LabelAccesses}

theorem partition_of_nodup (hnodup : (labels.map (·.label)).Nodup) :
    ∃ groups, empty.partition labels = (groups, none) := by
  apply registerAll_of_nodup
  · have hsublist := (numberLabels_sublist (Conflicts.ofLabels labels).forest [] 0 labels).map
      (·.label)
    rw [List.map_map] at hsublist
    exact hsublist.nodup hnodup
  · simp [empty, groupOf?]

theorem partition_inOrder {groups : LockGroups} (hnodup : (labels.map (·.label)).Nodup)
    (h : empty.partition labels = (groups, none)) :
    InOrder (fun accesses => groups.groupOf? accesses.label) labels := by
  obtain ⟨hsome, _⟩ := partition_spec hnodup h
  have hadds := (registers_of_registerAll h).adds
  have hskips : ∀ accesses ∈ labels, ¬ accesses.touchesGlobals = true →
      groups.groupOf? accesses.label = none := by
    intro accesses hmem htouches
    rw [← Option.not_isSome_iff_eq_none, hsome]
    intro htouched
    obtain ⟨isWrite, global, htouched⟩ := htouched
    obtain ⟨index, hindex⟩ := List.mem_iff_getElem?.1 hmem
    obtain ⟨other, hother, hglobal⟩ := (touchedBy_iff hnodup hindex).1 htouched
    rw [hindex] at hother
    cases hother
    exact htouches (touchesGlobals_iff.2 ⟨isWrite, global, hglobal⟩)
  intro front accesses back hlabels group hgroup number hnumber
  rcases numberLabels_inOrder (fun accesses => groups.groupOf? accesses.label) _ [] 0 labels hadds
    hskips front accesses back hlabels group hgroup number hnumber with hgiven | hearlier
  · cases hgiven
  · exact hearlier

end LockGroups

end PlusCalGo
