import Mathlib.Data.List.Induction
import Mathlib.Logic.Relation
import Mathlib.Order.Bounds.Basic
import PlusCalGo.Proofs.Locking.Forest

/-!
# Histories of a forest

A forest that starts from single numbers and goes through any calls of `find` and `union` stands for
the equivalence closure of the unions. Every search in it ends at the least number of the class, and
no round of a search moves a root.
-/

namespace PlusCalGo.Forest

/-! ## The rounds of a search -/

/-- One round of a search: the number is hung below its grandparent, where the search goes on. -/
inductive Round : Forest × Nat → Forest × Nat → Prop where
  | halve {forest halved : Forest} {node : Nat} :
      forest.parent node ≠ node →
      halved = forest.setParent node (forest.parent (forest.parent node)) →
      Round (forest, node) (halved, halved.parent node)

/-- The search stops at a root, after this many rounds. -/
inductive Ends : Nat → Forest × Nat → Forest × Nat → Prop where
  | root {forest : Forest} {node : Nat} :
      forest.parent node = node → Ends 0 (forest, node) (forest, node)
  | round {rounds : Nat} {state next last : Forest × Nat} :
      Round state next → Ends rounds next last → Ends (rounds + 1) state last

section Searching

variable {forest after : Forest} {node root : Nat}

theorem parent_halved (hstep : forest.parent node ≠ node) :
    (forest.setParent node (forest.parent (forest.parent node))).parent node =
      forest.parent (forest.parent node) :=
  parent_setParent_self _ (lt_length_of_parent_ne hstep)

/-- The bound on the steps never stops a search: every round goes to a smaller number. -/
theorem climb_ends {steps : Nat} (hforest : forest.Descends) (hsteps : node ≤ steps) :
    ∃ rounds ≤ node, Ends rounds (forest, node) (climb steps forest node) := by
  induction steps generalizing forest node with
  | zero =>
    have hzero : node = 0 := by omega
    subst hzero
    exact ⟨0, Nat.le_refl 0, .root (Nat.le_zero.1 (hforest 0))⟩
  | succ steps ih =>
    simp only [climb]
    split
    · rename_i hroot
      exact ⟨0, Nat.zero_le node, .root hroot⟩
    · rename_i hstep
      have hparent := hforest node
      have hgrandparent := hforest (forest.parent node)
      have hset := sameRoots_halve hforest hstep
      have hfuel : forest.parent (forest.parent node) ≤ steps := by omega
      obtain ⟨rounds, hrounds, hends⟩ := ih hset.1 hfuel
      have hround := Round.halve hstep rfl
      rw [parent_halved hstep] at hround
      exact ⟨rounds + 1, by omega, .round hround hends⟩

theorem find_ends (hforest : forest.Descends) (node : Nat) :
    ∃ rounds ≤ node, Ends rounds (forest, node) (forest.find node) :=
  climb_ends hforest (Nat.le_refl node)

theorem Round.sameRoots {state next : Forest × Nat} (hforest : state.1.Descends)
    (h : Round state next) : state.1.SameRoots next.1 ∧ next.2 ≤ state.2 := by
  cases h with
  | @halve forest halved node hstep hhalved =>
    subst hhalved
    refine ⟨sameRoots_halve hforest hstep, ?_⟩
    rw [parent_halved hstep]
    exact Nat.le_trans (hforest _) (hforest node)

theorem sameRoots_of_rounds {state next : Forest × Nat} (hforest : state.1.Descends)
    (h : Relation.ReflTransGen Round state next) :
    state.1.SameRoots next.1 ∧ next.2 ≤ state.2 := by
  induction h with
  | refl => exact ⟨.refl hforest, Nat.le_refl _⟩
  | tail _ hround ih =>
    obtain ⟨hbefore, hle⟩ := ih
    obtain ⟨hafter, hleAfter⟩ := hround.sameRoots hbefore.1
    exact ⟨hbefore.trans hafter, Nat.le_trans hleAfter hle⟩

theorem climbs_find (hforest : forest.Descends) (node : Nat) :
    forest.Climbs node (forest.find node).2 :=
  (find_spec hforest rfl).1

theorem sameRoots_find (hforest : forest.Descends) (node : Nat) :
    forest.SameRoots (forest.find node).1 :=
  (find_spec hforest rfl).2

theorem find_eq_iff (hforest : forest.Descends) :
    (forest.find node).2 = root ↔ forest.Climbs node root := by
  constructor
  · rintro rfl
    exact climbs_find hforest node
  · exact (climbs_find hforest node).unique

theorem SameRoots.find_eq (hforest : forest.Descends) (h : forest.SameRoots after) :
    (after.find node).2 = (forest.find node).2 := by
  rw [find_eq_iff h.1, h.climbs_iff hforest]
  exact climbs_find hforest node

theorem joined_iff_find_eq (hforest : forest.Descends) {a b : Nat} :
    forest.Joined a b ↔ (forest.find a).2 = (forest.find b).2 := by
  constructor
  · intro h
    obtain ⟨root, ha, hb⟩ := h
    rw [(find_eq_iff hforest).2 ha, (find_eq_iff hforest).2 hb]
  · intro h
    exact ⟨_, climbs_find hforest a, h ▸ climbs_find hforest b⟩

/-- A root is the least number of its tree. -/
theorem isLeast_find (hforest : forest.Descends) (node : Nat) :
    IsLeast {other | forest.Joined node other} (forest.find node).2 := by
  have hclimbs := climbs_find hforest node
  constructor
  · exact ⟨_, hclimbs, .root hclimbs.isRoot⟩
  · intro other hjoined
    obtain ⟨root, hnode, hother⟩ := hjoined
    rw [(find_eq_iff hforest).2 hnode]
    exact hother.le hforest

end Searching

/-! ## Calls one after the other -/

inductive Call where
  | find (node : Nat)
  | union (a b : Nat)

def Call.Within (size : Nat) : Call → Prop
  | .find node => node < size
  | .union a b => a < size ∧ b < size

def Call.apply (forest : Forest) : Call → Forest
  | .find node => (forest.find node).1
  | .union a b => forest.union a b

/-- The forest over the numbers below the size, after the calls. -/
def after (size : Nat) (calls : List Call) : Forest := calls.foldl Call.apply (singletons size)

/-- Two numbers are in one class of the unions. -/
def Together (calls : List Call) : Nat → Nat → Prop :=
  Relation.EqvGen fun a b => .union a b ∈ calls

/-- The forest stands for the unions among the calls. -/
structure Stands (size : Nat) (calls : List Call) (forest : Forest) : Prop where
  descends : forest.Descends
  length : forest.parents.length = size
  joined : ∀ m n, forest.Joined m n ↔ Together calls m n

section Calling

variable {size : Nat} {calls others : List Call} {forest : Forest}

theorem joined_equivalence (hforest : forest.Descends) : Equivalence forest.Joined :=
  ⟨Joined.refl hforest, Joined.symm, Joined.trans⟩

theorem joined_of_together (hforest : forest.Descends)
    (hunions : ∀ a b, .union a b ∈ calls → forest.Joined a b) {m n : Nat}
    (h : Together calls m n) : forest.Joined m n :=
  (joined_equivalence hforest).eqvGen_iff.1 (h.mono hunions)

theorem Together.mono (hsub : ∀ a b, Call.union a b ∈ calls → Call.union a b ∈ others) {m n : Nat}
    (h : Together calls m n) : Together others m n :=
  Relation.EqvGen.mono hsub m n h

theorem together_congr (h : ∀ a b, Call.union a b ∈ others ↔ Call.union a b ∈ calls) {m n : Nat} :
    Together others m n ↔ Together calls m n :=
  ⟨.mono fun a b => (h a b).1, .mono fun a b => (h a b).2⟩

theorem stands_singletons (size : Nat) : Stands size [] (singletons size) where
  descends := singletons_descends size
  length := by simp [singletons]
  joined := by
    intro m n
    constructor
    · intro h
      rw [joined_singletons.1 h]
      exact .refl n
    · exact joined_of_together (singletons_descends size) (by simp)

/-- A search joins nothing and takes nothing apart. -/
theorem Stands.find (h : Stands size calls forest) (node : Nat) :
    Stands size (calls ++ [.find node]) (forest.find node).1 := by
  have hsame := sameRoots_find h.descends node
  refine ⟨hsame.1, hsame.2.1.trans h.length, ?_⟩
  intro m n
  rw [hsame.joined_iff h.descends, h.joined]
  exact (together_congr (by simp)).symm

/-- A union joins the classes of its two numbers and no others. -/
theorem Stands.union {a b : Nat} (h : Stands size calls forest) (ha : a < size) (hb : b < size) :
    Stands size (calls ++ [.union a b]) (forest.union a b) := by
  have hunites := union_spec h.descends (h.length ▸ ha) (h.length ▸ hb)
  have hkept : ∀ {m n}, forest.Joined m n → Together (calls ++ [.union a b]) m n := by
    intro m n hjoined
    exact .mono (fun _ _ => List.mem_append_left _) ((h.joined m n).1 hjoined)
  have hnew : Together (calls ++ [.union a b]) a b := .rel a b (by simp)
  refine ⟨hunites.descends, hunites.length.trans h.length, fun m n => ⟨?_, ?_⟩⟩
  · intro hjoined
    rcases hunites.only m n hjoined with hmn | ⟨hm, hn⟩ | ⟨hm, hn⟩
    · exact hkept hmn
    · exact .trans _ _ _ (hkept hm) (.trans _ _ _ hnew (hkept hn.symm))
    · exact .trans _ _ _ (hkept hm) (.trans _ _ _ (.symm _ _ hnew) (hkept hn.symm))
  -- Being joined is an equivalence, so the unions themselves are all there is to see to.
  · apply joined_of_together hunites.descends
    intro c d hmem
    rcases List.mem_append.1 hmem with hold | hlast
    · exact hunites.keeps c d ((h.joined c d).2 (.rel c d hold))
    · simp only [List.mem_singleton, Call.union.injEq] at hlast
      obtain ⟨rfl, rfl⟩ := hlast
      exact hunites.joins

theorem Stands.apply {call : Call} (h : Stands size calls forest) (hcall : call.Within size) :
    Stands size (calls ++ [call]) (call.apply forest) := by
  cases call with
  | find node => exact h.find node
  | union a b => exact h.union hcall.1 hcall.2

theorem stands_after (hcalls : ∀ call ∈ calls, call.Within size) :
    Stands size calls (after size calls) := by
  induction calls using List.reverseRecOn with
  | nil => exact stands_singletons size
  | append_singleton calls call ih =>
    rw [after, List.foldl_append]
    exact (ih fun other hother => hcalls other (by simp [hother])).apply (hcalls call (by simp))

theorem Stands.isLeast (h : Stands size calls forest) (node : Nat) :
    IsLeast {other | Together calls node other} (forest.find node).2 := by
  have hleast := isLeast_find h.descends node
  simpa only [h.joined] using hleast

/-- However often numbers were joined and looked up before: parents are never larger than their
children, and a search ends at the least number of the class, after at most as many rounds as its
number is large. No round moves the root of any number, and the roots are those of any other calls
with the same unions. -/
theorem searches_exact (hcalls : ∀ call ∈ calls, call.Within size) :
    (after size calls).parents.length = size ∧
      (∀ node, (after size calls).parent node ≤ node) ∧
      (∀ node < size,
        (∃ rounds ≤ node, Ends rounds (after size calls, node) ((after size calls).find node)) ∧
          (∀ state, Relation.ReflTransGen Round (after size calls, node) state →
            state.2 ≤ node ∧ state.1.parents.length = size ∧
              (∀ other, state.1.parent other ≤ other) ∧
              (∀ other, (state.1.find other).2 = ((after size calls).find other).2)) ∧
          IsLeast {other | Together calls node other} ((after size calls).find node).2) ∧
      (∀ a b, ((after size calls).find a).2 = ((after size calls).find b).2 ↔
        Together calls a b) ∧
      ∀ others : List Call, (∀ call ∈ others, call.Within size) →
        (∀ a b, Call.union a b ∈ others ↔ Call.union a b ∈ calls) →
        ∀ node, ((after size others).find node).2 = ((after size calls).find node).2 := by
  have hstands := stands_after hcalls
  refine ⟨hstands.length, hstands.descends, ?_, ?_, ?_⟩
  · intro node _
    refine ⟨find_ends hstands.descends node, ?_, hstands.isLeast node⟩
    intro state hrounds
    obtain ⟨hsame, hle⟩ := sameRoots_of_rounds hstands.descends hrounds
    exact ⟨hle, hsame.2.1.trans hstands.length, hsame.1,
      fun other => hsame.find_eq hstands.descends⟩
  · intro a b
    rw [← joined_iff_find_eq hstands.descends, hstands.joined]
  · intro others hothers hunions node
    -- Both roots are least in one class.
    have hother := (stands_after hothers).isLeast node
    simp only [together_congr hunions] at hother
    exact IsLeast.unique hother (hstands.isLeast node)

/-- Five numbers joined from the top down hang in one chain, and a search from its end halves it. -/
theorem searches_exact_chain :
    (after 5 [.union 3 4, .union 2 3, .union 1 2, .union 0 1]).parents = [0, 0, 1, 2, 3] ∧
      (after 5 [.union 3 4, .union 2 3, .union 1 2, .union 0 1, .find 4]).parents =
        [0, 0, 0, 2, 2] ∧
      ∀ a b, ((after 5 [.union 3 4, .union 2 3, .union 1 2, .union 0 1, .find 4]).find a).2 =
          ((after 5 [.union 3 4, .union 2 3, .union 1 2, .union 0 1, .find 4]).find b).2 ↔
        Together [.union 3 4, .union 2 3, .union 1 2, .union 0 1, .find 4] a b := by
  have hcalls : ∀ call ∈ ([.union 3 4, .union 2 3, .union 1 2, .union 0 1, .find 4] : List Call),
      call.Within 5 := by
    simp [Call.Within]
  exact ⟨by decide, by decide, (searches_exact hcalls).2.2.2.1⟩

end Calling

end PlusCalGo.Forest
