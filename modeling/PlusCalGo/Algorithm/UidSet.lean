import PlusCalGo.Algorithm.Basic

/-!
# Sets of uids

Sets as ascending lists without repetition.
-/

namespace PlusCalGo

namespace Uid

theorem lt_iff {a b : Uid} : a < b ↔ a.number.toNat < b.number.toNat := UInt32.lt_iff_toNat_lt

theorem lt_trans {a b c : Uid} (hab : a < b) (hbc : b < c) : a < c :=
  lt_iff.2 (Nat.lt_trans (lt_iff.1 hab) (lt_iff.1 hbc))

theorem lt_irrefl (uid : Uid) : ¬ uid < uid := by
  rw [lt_iff]
  exact Nat.lt_irrefl _

theorem lt_of_not_lt_of_ne {a b : Uid} (hlt : ¬ a < b) (hne : a ≠ b) : b < a := by
  rw [lt_iff] at *
  have hnumber : a.number.toNat ≠ b.number.toNat := by
    intro h
    apply hne
    cases a
    cases b
    simp only [Uid.mk.injEq]
    exact UInt32.toNat_inj.1 h
  omega

end Uid

structure UidSet where
  toList : List Uid
  ascending : toList.Pairwise (· < ·)

namespace UidSet

def empty : UidSet := ⟨[], .nil⟩

instance : Inhabited UidSet := ⟨empty⟩

/-- Puts a uid in its place in an ascending list that may hold it already. -/
def insertSorted (uid : Uid) : List Uid → List Uid
  | [] => [uid]
  | first :: rest =>
    if uid < first then uid :: first :: rest
    else if uid = first then first :: rest
    else first :: insertSorted uid rest

theorem mem_insertSorted {uid x : Uid} {uids : List Uid} :
    x ∈ insertSorted uid uids ↔ x = uid ∨ x ∈ uids := by
  fun_induction insertSorted uid uids <;> grind

theorem pairwise_insertSorted {uid : Uid} {uids : List Uid} (h : uids.Pairwise (· < ·)) :
    (insertSorted uid uids).Pairwise (· < ·) := by
  induction uids with
  | nil => simp [insertSorted]
  | cons first rest ih =>
    obtain ⟨hfirst, hrest⟩ := List.pairwise_cons.1 h
    simp only [insertSorted]
    split
    · rename_i hlt
      refine List.pairwise_cons.2 ⟨?_, h⟩
      intro x hx
      rcases List.mem_cons.1 hx with rfl | hx
      · exact hlt
      · exact Uid.lt_trans hlt (hfirst x hx)
    · split
      · exact h
      · rename_i hlt hne
        refine List.pairwise_cons.2 ⟨?_, ih hrest⟩
        intro x hx
        rcases mem_insertSorted.1 hx with rfl | hx
        · exact Uid.lt_of_not_lt_of_ne hlt hne
        · exact hfirst x hx

def insert (uid : Uid) (set : UidSet) : UidSet :=
  ⟨insertSorted uid set.toList, pairwise_insertSorted set.ascending⟩

def ofList (uids : List Uid) : UidSet := uids.foldl (fun set uid => set.insert uid) empty

def union (a b : UidSet) : UidSet := b.toList.foldl (fun set uid => set.insert uid) a

instance : Membership Uid UidSet := ⟨fun set uid => uid ∈ set.toList⟩

instance (uid : Uid) (set : UidSet) : Decidable (uid ∈ set) :=
  inferInstanceAs (Decidable (uid ∈ set.toList))

theorem nodup_toList (set : UidSet) : set.toList.Nodup := by
  refine set.ascending.imp ?_
  rintro a _ hlt rfl
  exact Uid.lt_irrefl a hlt

@[simp] theorem mem_insert {uid x : Uid} {set : UidSet} : x ∈ set.insert uid ↔ x = uid ∨ x ∈ set :=
  mem_insertSorted

theorem mem_foldl_insert {x : Uid} {uids : List Uid} {set : UidSet} :
    x ∈ uids.foldl (fun set uid => set.insert uid) set ↔ x ∈ set ∨ x ∈ uids := by
  induction uids generalizing set with
  | nil => simp
  | cons first rest ih => grind [mem_insert]

@[simp] theorem mem_ofList {x : Uid} {uids : List Uid} : x ∈ ofList uids ↔ x ∈ uids := by
  have hempty : x ∉ empty := List.not_mem_nil
  simp [ofList, mem_foldl_insert, hempty]

@[simp] theorem mem_union {x : Uid} {a b : UidSet} : x ∈ a.union b ↔ x ∈ a ∨ x ∈ b :=
  mem_foldl_insert

def isEmpty (set : UidSet) : Bool := set.toList.isEmpty

end UidSet

end PlusCalGo
