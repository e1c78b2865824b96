import PlusCalGo.Locking.Partition

/-!
# The forest of joined labels

Parents are never larger than their children, so climbing ends at a root. Hanging a number elsewhere
below its root changes no root, and a union makes one tree of two.
-/

namespace PlusCalGo.Forest

/-- Parents are at most as large as their children. -/
def Descends (forest : Forest) : Prop := ∀ node, forest.parent node ≤ node

/-- Climbing from the node ends at the root. -/
inductive Climbs (forest : Forest) : Nat → Nat → Prop where
  | root {node : Nat} : forest.parent node = node → Climbs forest node node
  | step {node root : Nat} :
      forest.parent node ≠ node → Climbs forest (forest.parent node) root → Climbs forest node root

/-- Two numbers are in one tree. -/
def Joined (forest : Forest) (a b : Nat) : Prop :=
  ∃ root, forest.Climbs a root ∧ forest.Climbs b root

section Climbing

variable {forest : Forest} {node root other : Nat}

theorem Climbs.unique (h : forest.Climbs node root) (hother : forest.Climbs node other) :
    root = other := by
  induction h with
  | root hroot =>
    cases hother with
    | root => rfl
    | step hstep => exact absurd hroot hstep
  | step hstep _ ih =>
    cases hother with
    | root hroot => exact absurd hroot hstep
    | step _ hrest => exact ih hrest

theorem Climbs.isRoot (h : forest.Climbs node root) : forest.parent root = root := by
  induction h with
  | root hroot => exact hroot
  | step _ _ ih => exact ih

theorem Climbs.le (hforest : forest.Descends) (h : forest.Climbs node root) : root ≤ node := by
  induction h with
  | root => exact Nat.le_refl _
  | @step node root _ _ ih => exact Nat.le_trans ih (hforest node)

theorem exists_climbs (hforest : forest.Descends) (node : Nat) :
    ∃ root, forest.Climbs node root := by
  induction node using Nat.strongRecOn with
  | ind node ih =>
    by_cases hroot : forest.parent node = node
    · exact ⟨node, .root hroot⟩
    · have hlt : forest.parent node < node := by
        have hle := hforest node
        omega
      obtain ⟨root, hclimbs⟩ := ih _ hlt
      exact ⟨root, .step hroot hclimbs⟩

theorem Joined.refl (hforest : forest.Descends) (a : Nat) : forest.Joined a a := by
  obtain ⟨root, hclimbs⟩ := exists_climbs hforest a
  exact ⟨root, hclimbs, hclimbs⟩

theorem Joined.symm {a b : Nat} (h : forest.Joined a b) : forest.Joined b a := by
  obtain ⟨root, ha, hb⟩ := h
  exact ⟨root, hb, ha⟩

theorem Joined.trans {a b c : Nat} (hab : forest.Joined a b) (hbc : forest.Joined b c) :
    forest.Joined a c := by
  obtain ⟨root, ha, hb⟩ := hab
  obtain ⟨other, hb', hc⟩ := hbc
  rw [hb.unique hb'] at ha
  exact ⟨other, ha, hc⟩

end Climbing

/-! ## Changing parents -/

section Parents

variable {forest : Forest} {node target : Nat}

theorem parent_of_length_le (h : forest.parents.length ≤ node) : forest.parent node = node := by
  simp [parent, List.getElem?_eq_none h]

theorem lt_length_of_parent_ne (h : forest.parent node ≠ node) : node < forest.parents.length := by
  by_cases hlt : node < forest.parents.length
  · exact hlt
  · exact absurd (parent_of_length_le (by omega)) h

theorem parent_setParent_self (target : Nat) (h : node < forest.parents.length) :
    (forest.setParent node target).parent node = target := by
  simp [parent, setParent, h]

theorem parent_setParent_ne {other : Nat} (h : other ≠ node) :
    (forest.setParent node target).parent other = forest.parent other := by
  simp [parent, setParent, List.getElem?_set_ne (Ne.symm h)]

@[simp] theorem length_setParent :
    (forest.setParent node target).parents.length = forest.parents.length := by
  simp [setParent]

theorem Descends.setParent (hforest : forest.Descends) (h : target ≤ node) :
    (forest.setParent node target).Descends := by
  intro other
  by_cases hother : other = node
  · subst hother
    by_cases hlt : other < forest.parents.length
    · rw [parent_setParent_self target hlt]
      exact h
    · exact Nat.le_of_eq (parent_of_length_le (by rw [length_setParent]; omega))
  · rw [parent_setParent_ne hother]
    exact hforest other

/-- A number that is no root may hang below any smaller number of its tree. -/
theorem Climbs.setParent (hforest : forest.Descends) {root : Nat}
    (hnode : forest.parent node ≠ node) (hlt : target < node)
    (hfrom : forest.Climbs node root) (hto : forest.Climbs target root) {start finish : Nat}
    (h : forest.Climbs start finish) : (forest.setParent node target).Climbs start finish := by
  -- By the number itself: the new way from `node` goes on at `target`, which is not on the old one.
  induction start using Nat.strongRecOn generalizing finish with
  | ind start ih =>
    by_cases hstart : start = node
    · subst hstart
      have hparent := parent_setParent_self target (lt_length_of_parent_ne hnode)
      refine .step ?_ ?_
      · rw [hparent]
        omega
      · rw [hparent, h.unique hfrom]
        exact ih target hlt hto
    · cases h with
      | root hroot => exact .root (by rw [parent_setParent_ne hstart, hroot])
      | step hstep hrest =>
        have hsmaller : forest.parent start < start := by
          have hle := hforest start
          omega
        refine .step ?_ ?_
        · rwa [parent_setParent_ne hstart]
        · rw [parent_setParent_ne hstart]
          exact ih _ hsmaller hrest

/-- A root that is hung below another one takes its tree with it. -/
theorem Climbs.link {low high : Nat} (hlow : forest.parent low = low)
    (hhigh : forest.parent high = high) (hlt : low < high)
    (hlength : high < forest.parents.length) {start finish : Nat} (h : forest.Climbs start finish) :
    (forest.setParent high low).Climbs start (if finish = high then low else finish) := by
  have hlowRoot : (forest.setParent high low).Climbs low low :=
    .root (by rw [parent_setParent_ne (by omega), hlow])
  induction h with
  | @root node hroot =>
    by_cases hnode : node = high
    · subst hnode
      rw [if_pos rfl]
      have hparent := parent_setParent_self low hlength
      refine .step (by rw [hparent]; omega) ?_
      rw [hparent]
      exact hlowRoot
    · rw [if_neg hnode]
      exact .root (by rw [parent_setParent_ne hnode, hroot])
  | @step node root hstep _ ih =>
    have hnode : node ≠ high := by
      rintro rfl
      exact hstep hhigh
    refine .step ?_ ?_
    · rwa [parent_setParent_ne hnode]
    · rwa [parent_setParent_ne hnode]

end Parents

/-! ## Finding and joining -/

/-- A forest over the same numbers with the same roots. -/
def SameRoots (forest after : Forest) : Prop :=
  after.Descends ∧ after.parents.length = forest.parents.length ∧
    ∀ start finish, forest.Climbs start finish → after.Climbs start finish

section Finding

variable {forest after : Forest} {node root : Nat}

theorem SameRoots.refl (hforest : forest.Descends) : forest.SameRoots forest :=
  ⟨hforest, rfl, fun _ _ h => h⟩

theorem SameRoots.trans {last : Forest} (hfirst : forest.SameRoots after)
    (hsecond : after.SameRoots last) : forest.SameRoots last :=
  ⟨hsecond.1, hsecond.2.1.trans hfirst.2.1,
    fun start finish h => hsecond.2.2 start finish (hfirst.2.2 start finish h)⟩

theorem SameRoots.climbs_iff (hforest : forest.Descends) (h : forest.SameRoots after) :
    after.Climbs node root ↔ forest.Climbs node root := by
  constructor
  · intro hafter
    obtain ⟨other, hother⟩ := exists_climbs hforest node
    rw [hafter.unique (h.2.2 node other hother)]
    exact hother
  · exact h.2.2 node root

theorem SameRoots.joined_iff (hforest : forest.Descends) (h : forest.SameRoots after)
    {a b : Nat} : after.Joined a b ↔ forest.Joined a b := by
  simp only [Joined, h.climbs_iff hforest]

theorem Climbs.of_grandparent (hstep : forest.parent node ≠ node)
    (h : forest.Climbs (forest.parent (forest.parent node)) root) : forest.Climbs node root := by
  by_cases hroot : forest.parent (forest.parent node) = forest.parent node
  · rw [hroot] at h
    exact .step hstep h
  · exact .step hstep (.step hroot h)

/-- A number that is no root may hang below its grandparent, which climbs to the same root. -/
theorem sameRoots_halve (hforest : forest.Descends) (hstep : forest.parent node ≠ node) :
    forest.SameRoots (forest.setParent node (forest.parent (forest.parent node))) := by
  have hparent := hforest node
  have hgrandparent := hforest (forest.parent node)
  have hlt : forest.parent (forest.parent node) < node := by omega
  obtain ⟨top, htop⟩ := exists_climbs hforest (forest.parent (forest.parent node))
  exact ⟨hforest.setParent (by omega), length_setParent,
    fun _ _ => Climbs.setParent hforest hstep hlt (.of_grandparent hstep htop) htop⟩

theorem climb_spec {steps : Nat} (hforest : forest.Descends) (hsteps : node ≤ steps)
    (h : climb steps forest node = (after, root)) :
    forest.Climbs node root ∧ forest.SameRoots after := by
  induction steps generalizing forest node with
  | zero =>
    have hzero : node = 0 := by omega
    subst hzero
    have hroot : forest.parent 0 = 0 := Nat.le_zero.1 (hforest 0)
    cases h
    exact ⟨.root hroot, .refl hforest⟩
  | succ steps ih =>
    simp only [climb] at h
    split at h
    · rename_i hroot
      cases h
      exact ⟨.root hroot, .refl hforest⟩
    · rename_i hstep
      have hparent := hforest node
      have hgrandparent := hforest (forest.parent node)
      have hset := sameRoots_halve hforest hstep
      obtain ⟨hclimbs, hafter⟩ := ih hset.1 (by omega) h
      exact ⟨.of_grandparent hstep ((hset.climbs_iff hforest).1 hclimbs), hset.trans hafter⟩

theorem find_spec (hforest : forest.Descends) (h : forest.find node = (after, root)) :
    forest.Climbs node root ∧ forest.SameRoots after :=
  climb_spec hforest (Nat.le_refl node) h

end Finding

/-! ## Unions -/

/-- The forest after a union: the two numbers are in one tree, and nothing else is joined. -/
structure Unites (forest after : Forest) (a b : Nat) : Prop where
  descends : after.Descends
  length : after.parents.length = forest.parents.length
  keeps : ∀ m n, forest.Joined m n → after.Joined m n
  joins : after.Joined a b
  only : ∀ m n, after.Joined m n → forest.Joined m n ∨
    (forest.Joined m a ∧ forest.Joined n b) ∨ (forest.Joined m b ∧ forest.Joined n a)

section Unions

variable {forest : Forest} {a b : Nat}

theorem Unites.symm {after : Forest} (h : forest.Unites after a b) : forest.Unites after b a :=
  ⟨h.descends, h.length, h.keeps, h.joins.symm, fun m n hmn => (h.only m n hmn).imp_right Or.symm⟩

private theorem unites_link (hforest : forest.Descends) {low high : Nat}
    (hlow : forest.parent low = low) (hhigh : forest.parent high = high) (hlt : low < high)
    (hlength : high < forest.parents.length) (ha : forest.Climbs a low)
    (hb : forest.Climbs b high) : forest.Unites (forest.setParent high low) a b where
  descends := hforest.setParent (by omega)
  length := length_setParent
  keeps := by
    intro m n hjoined
    rcases hjoined with ⟨root, hm, hn⟩
    exact ⟨_, hm.link hlow hhigh hlt hlength, hn.link hlow hhigh hlt hlength⟩
  joins := by
    have ha := ha.link hlow hhigh hlt hlength
    have hb := hb.link hlow hhigh hlt hlength
    rw [if_neg (by omega)] at ha
    rw [if_pos rfl] at hb
    exact ⟨low, ha, hb⟩
  only := by
    intro m n hjoined
    rcases hjoined with ⟨root, hm, hn⟩
    obtain ⟨top, htop⟩ := exists_climbs hforest m
    obtain ⟨other, hother⟩ := exists_climbs hforest n
    have hmSame := hm.unique (htop.link hlow hhigh hlt hlength)
    have hnSame := hn.unique (hother.link hlow hhigh hlt hlength)
    rw [hmSame] at hnSame
    -- The old roots tell which of the two numbers came from the tree that was moved.
    by_cases htopHigh : top = high
    · by_cases hotherHigh : other = high
      · subst htopHigh
        subst hotherHigh
        exact .inl ⟨_, htop, hother⟩
      · rw [if_pos htopHigh, if_neg hotherHigh] at hnSame
        subst htopHigh
        subst hnSame
        exact .inr (.inr ⟨⟨_, htop, hb⟩, ⟨_, hother, ha⟩⟩)
    · by_cases hotherHigh : other = high
      · rw [if_neg htopHigh, if_pos hotherHigh] at hnSame
        subst hotherHigh
        subst hnSame
        exact .inr (.inl ⟨⟨_, htop, ha⟩, ⟨_, hother, hb⟩⟩)
      · rw [if_neg htopHigh, if_neg hotherHigh] at hnSame
        subst hnSame
        exact .inl ⟨_, htop, hother⟩

private theorem SameRoots.unites {before after : Forest} (hbefore : before.Descends)
    (h : before.SameRoots forest) (hafter : forest.Unites after a b) :
    before.Unites after a b where
  descends := hafter.descends
  length := hafter.length.trans h.2.1
  keeps := fun m n hmn => hafter.keeps m n ((h.joined_iff hbefore).2 hmn)
  joins := hafter.joins
  only := fun m n hmn => by
    simpa only [h.joined_iff hbefore] using hafter.only m n hmn

theorem union_spec (hforest : forest.Descends) (ha : a < forest.parents.length)
    (hb : b < forest.parents.length) : forest.Unites (forest.union a b) a b := by
  rcases hfindA : forest.find a with ⟨first, rootA⟩
  rcases hfindB : first.find b with ⟨second, rootB⟩
  obtain ⟨hclimbsA, hfirst⟩ := find_spec hforest hfindA
  obtain ⟨hclimbsB, hsecond⟩ := find_spec hfirst.1 hfindB
  have hsame := hfirst.trans hsecond
  have hclimbsA := hsame.2.2 _ _ hclimbsA
  have hclimbsB := hsecond.2.2 _ _ hclimbsB
  have hleA := hclimbsA.le hsame.1
  have hleB := hclimbsB.le hsame.1
  have hlength := hsame.2.1
  apply hsame.unites hforest
  simp only [union, hfindA, hfindB]
  split
  · rename_i hroots
    subst hroots
    have hjoined : second.Joined a b := ⟨rootA, hclimbsA, hclimbsB⟩
    exact ⟨hsame.1, rfl, fun _ _ h => h, hjoined, fun _ _ h => .inl h⟩
  · rename_i hroots
    split
    · rename_i hlt
      exact unites_link hsame.1 hclimbsA.isRoot hclimbsB.isRoot hlt (by omega) hclimbsA hclimbsB
    · rename_i hlt
      have hother : rootB < rootA := by omega
      exact (unites_link hsame.1 hclimbsB.isRoot hclimbsA.isRoot hother (by omega) hclimbsB
        hclimbsA).symm

theorem parent_singletons (size node : Nat) : (singletons size).parent node = node := by
  simp only [parent, singletons]
  by_cases h : node < size
  · simp [h]
  · simp [List.getElem?_eq_none (show (List.range size).length ≤ node by simp; omega)]

theorem singletons_descends (size : Nat) : (singletons size).Descends := by
  intro node
  exact Nat.le_of_eq (parent_singletons size node)

theorem joined_singletons {size m n : Nat} : (singletons size).Joined m n ↔ m = n := by
  constructor
  · intro h
    rcases h with ⟨root, hm, hn⟩
    have hself (node : Nat) : (singletons size).Climbs node node := .root (parent_singletons _ _)
    rw [(hself m).unique hm, (hself n).unique hn]
  · rintro rfl
    exact Joined.refl (singletons_descends size) m

end Unions

end PlusCalGo.Forest
