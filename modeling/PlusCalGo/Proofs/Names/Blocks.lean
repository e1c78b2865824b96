import Mathlib.Tactic.Tauto
import PlusCalGo.Algorithm.Basic

/-!
# Blocks of Go code

Go code declares names block by block. A name denotes what the innermost block that declares it
declares it as. A block that declares a name twice is no Go, so there it denotes nothing.
-/

namespace PlusCalGo.Go

/-- What Go code declares a name for. -/
inductive Declared where
  /-- The variable of a declaration of the algorithm. -/
  | source (declaration : Uid)
  /-- The copy that a function works on of the global with the name. -/
  | copy (global : String)
  /-- The function of a process or procedure, or `main`. -/
  | function
  /-- A package that the file imports. -/
  | package
  /-- The parameter that every function has. -/
  | self
  | temporary (number : Nat)
  /-- The array of mutexes. -/
  | locks
  /-- The client of the state service. -/
  | service
  /-- The value of a global that was just loaded. -/
  | loaded
  /-- The error of a call of the service. -/
  | failure
deriving DecidableEq

namespace Declared

/-- The name was chosen by the author of the algorithm, and not by the back end. -/
def isNamed : Declared → Bool
  | source _ | copy _ | function => true
  | _ => false

def isSource : Declared → Bool
  | source _ => true
  | _ => false

def isCopy : Declared → Bool
  | copy _ => true
  | _ => false

/-- What can take a name away that the back end puts in. A name of its own can only be taken by the
author of the algorithm, and that of a variable only by what is not of the same sort. -/
def Rivals (declared other : Declared) : Prop :=
  match declared with
  | source _ => other.isSource = false
  | copy _ => other.isCopy = false
  | function => other ≠ function
  | _ => other.isNamed = true

/-- What can take its name away from what an identifier of the algorithm stands for. No other
declaration of the algorithm can. -/
def Hides (declared other : Declared) : Prop := other.isSource = false ∧ other ≠ declared

end Declared

/-- Declarations of one block, latest first. -/
abbrev Block := List (String × Declared)

/-- What the block declares under a name. -/
def Block.named (block : Block) (name : String) : List Declared :=
  (block.filter (·.1 = name)).map (·.2)

/-- The blocks around a piece of code, innermost first. -/
abbrev Blocks := List Block

namespace Blocks

/-- What a name denotes. -/
def lookup (name : String) : Blocks → Option Declared
  | [] => none
  | block :: rest =>
    match Block.named block name with
    | [] => lookup name rest
    | [declared] => some declared
    | _ => none

/-- What else the name is declared for, from the innermost block to the one that declares it for
this. -/
def others (name : String) (declared : Declared) : Blocks → List Declared
  | [] => []
  | block :: rest =>
    if declared ∈ Block.named block name then (Block.named block name).erase declared
    else Block.named block name ++ others name declared rest

def Declares (blocks : Blocks) (name : String) (declared : Declared) : Prop :=
  ∃ block ∈ blocks, (name, declared) ∈ block

/-- The name is declared for this around the code, and it denotes it unless a rival has it. -/
structure Hosts (blocks : Blocks) (name : String) (declared : Declared)
    (rival : Declared → Prop) : Prop where
  declares : blocks.Declares name declared
  hidden : ∀ other ∈ blocks.others name declared, rival other
  denotes : blocks.lookup name = some declared ↔
    ∀ other ∈ blocks.others name declared, ¬ rival other

end Blocks

/-! ## Lookups -/

section Lookups

variable {blocks : Blocks} {block : Block} {name : String} {declared : Declared}
  {rival : Declared → Prop}

theorem Block.mem_named : declared ∈ Block.named block name ↔ (name, declared) ∈ block := by
  simp [Block.named]

namespace Blocks

theorem declares_cons : Declares (block :: blocks) name declared ↔
    declared ∈ Block.named block name ∨ Declares blocks name declared := by
  simp [Declares, Block.mem_named]

/-- A name denotes what is declared if nothing else is. -/
theorem lookup_eq_some_iff (h : blocks.Declares name declared) :
    blocks.lookup name = some declared ↔ blocks.others name declared = [] := by
  induction blocks with
  | nil => simp [Declares] at h
  | cons block rest ih =>
    unfold lookup others
    by_cases hmem : declared ∈ Block.named block name
    · rw [if_pos hmem]
      rcases hnamed : Block.named block name with _ | ⟨first, _ | ⟨second, more⟩⟩
      · simp [hnamed] at hmem
      · rw [hnamed, List.mem_singleton] at hmem
        simp [hmem]
      · -- Of two declarations at least one is left.
        have hlength := List.length_erase_of_mem hmem
        rw [hnamed] at hlength
        have hne : (first :: second :: more).erase declared ≠ [] := by
          intro hnil
          rw [hnil] at hlength
          simp at hlength
        simp [hne]
    · rw [if_neg hmem]
      have hrest := (declares_cons.1 h).resolve_left hmem
      rcases hnamed : Block.named block name with _ | ⟨first, _ | ⟨second, more⟩⟩
      · simpa using ih hrest
      · rw [hnamed, List.mem_singleton] at hmem
        simp [Ne.symm hmem]
      · simp

theorem Hosts.of_hidden (hdeclares : blocks.Declares name declared)
    (hhidden : ∀ other ∈ blocks.others name declared, rival other) :
    blocks.Hosts name declared rival where
  declares := hdeclares
  hidden := hhidden
  denotes := by
    rw [lookup_eq_some_iff hdeclares]
    constructor
    · intro hnil other hother
      rw [hnil] at hother
      cases hother
    · intro hnone
      rw [List.eq_nil_iff_forall_not_mem]
      intro other hother
      exact hnone other hother (hhidden other hother)

theorem Hosts.mono {weaker : Declared → Prop} (h : blocks.Hosts name declared rival)
    (hweaker : ∀ other, rival other → weaker other) : blocks.Hosts name declared weaker :=
  .of_hidden h.declares fun other hother => hweaker other (h.hidden other hother)

/-- A block that declares the name for this, and otherwise for rivals only. -/
theorem Hosts.here (hmem : (name, declared) ∈ block)
    (h : ∀ other ∈ (Block.named block name).erase declared, rival other) :
    Hosts (block :: blocks) name declared rival := by
  have hnamed := Block.mem_named.2 hmem
  refine .of_hidden (declares_cons.2 (.inl hnamed)) ?_
  rw [others, if_pos hnamed]
  exact h

/-- A block further in that declares the name for rivals only. -/
theorem Hosts.inside (h : blocks.Hosts name declared rival)
    (hblock : ∀ other, (name, other) ∈ block → other ≠ declared ∧ rival other) :
    Hosts (block :: blocks) name declared rival := by
  refine .of_hidden (declares_cons.2 (.inr h.declares)) ?_
  have hnot : declared ∉ Block.named block name :=
    fun hmem => (hblock declared (Block.mem_named.1 hmem)).1 rfl
  rw [others, if_neg hnot]
  intro other hother
  rcases List.mem_append.1 hother with hother | hother
  · exact (hblock other (Block.mem_named.1 hother)).2
  · exact h.hidden other hother

/-- A block further in that does not have the name. -/
theorem Hosts.past (h : blocks.Hosts name declared rival)
    (hblock : ∀ entry ∈ block, entry.1 ≠ name) : Hosts (block :: blocks) name declared rival :=
  h.inside fun _ hmem => (hblock _ hmem rfl).elim

theorem named_cons_self (other : Declared) :
    Block.named ((name, other) :: block) name = other :: Block.named block name := by
  simp [Block.named]

theorem named_cons_ne {first : String} (hne : first ≠ name) (other : Declared) :
    Block.named ((first, other) :: block) name = Block.named block name := by
  simp [Block.named, hne]

/-- One more declaration in the innermost block. -/
theorem Hosts.add {first : String} {other : Declared}
    (h : Hosts (block :: blocks) name declared rival)
    (hother : first = name → other ≠ declared ∧ rival other) :
    Hosts (((first, other) :: block) :: blocks) name declared rival := by
  by_cases hname : first = name
  · subst hname
    obtain ⟨hne, hrival⟩ := hother rfl
    have hmem : declared ∈ other :: Block.named block first ↔
        declared ∈ Block.named block first := by simp [Ne.symm hne]
    refine .of_hidden ?_ ?_
    · rw [declares_cons, named_cons_self, hmem, ← declares_cons]
      exact h.declares
    · have hothers : others first declared (((first, other) :: block) :: blocks) =
          other :: others first declared (block :: blocks) := by
        rw [others, others, named_cons_self]
        by_cases hin : declared ∈ Block.named block first
        · rw [if_pos (hmem.2 hin), if_pos hin, List.erase_cons_tail (by simpa using hne)]
        · rw [if_neg (mt hmem.1 hin), if_neg hin, List.cons_append]
      rw [hothers]
      exact List.forall_mem_cons.2 ⟨hrival, h.hidden⟩
  · refine .of_hidden ?_ ?_
    · rw [declares_cons, named_cons_ne hname, ← declares_cons]
      exact h.declares
    · have hothers : others name declared (((first, other) :: block) :: blocks) =
          others name declared (block :: blocks) := by
        rw [others, others, named_cons_ne hname]
      rw [hothers]
      exact h.hidden

/-- The order of the declarations in a block does not matter. -/
theorem Hosts.perm {other : Block} (h : Hosts (block :: blocks) name declared rival)
    (hperm : block.Perm other) : Hosts (other :: blocks) name declared rival := by
  have hnamed : (Block.named block name).Perm (Block.named other name) :=
    (hperm.filter _).map _
  refine .of_hidden ?_ ?_
  · rw [declares_cons, ← hnamed.mem_iff, ← declares_cons]
    exact h.declares
  · intro found hfound
    refine h.hidden found ?_
    rw [others] at hfound ⊢
    by_cases hin : declared ∈ Block.named block name
    · rw [if_pos (hnamed.mem_iff.1 hin)] at hfound
      rw [if_pos hin]
      exact (hnamed.erase declared).mem_iff.2 hfound
    · rw [if_neg (mt hnamed.mem_iff.2 hin)] at hfound
      rw [if_neg hin]
      exact (hnamed.append_right _).mem_iff.2 hfound

/-- A declaration in the midst of a block. -/
theorem Hosts.among {front back : Block}
    (h : ∀ other, (name, other) ∈ front ++ back → rival other) :
    Hosts ((front ++ (name, declared) :: back) :: blocks) name declared rival := by
  have hfirst : Hosts (((name, declared) :: (front ++ back)) :: blocks) name declared rival := by
    refine .here List.mem_cons_self ?_
    rw [named_cons_self, List.erase_cons_head]
    exact fun other hother => h other (Block.mem_named.1 hother)
  exact hfirst.perm List.perm_middle.symm

/-- A part of a block in which each name is declared once. -/
theorem Hosts.within {front middle back : Block} (hnodup : (middle.map (·.1)).Nodup)
    (hmem : (name, declared) ∈ middle)
    (hrest : ∀ other, (name, other) ∈ front ++ back → rival other) :
    Hosts ((front ++ (middle ++ back)) :: blocks) name declared rival := by
  obtain ⟨before, after, rfl⟩ := List.append_of_mem hmem
  rw [List.map_append, List.map_cons] at hnodup
  have hname := (List.nodup_cons.1 (List.perm_middle.nodup_iff.1 hnodup)).1
  rw [← List.map_append] at hname
  have hblock : front ++ (before ++ (name, declared) :: after ++ back) =
      (front ++ before) ++ (name, declared) :: (after ++ back) := by simp
  rw [hblock]
  refine .among fun other hother => ?_
  have hcases : (name, other) ∈ front ++ back ∨ (name, other) ∈ before ++ after := by
    simp only [List.mem_append] at hother ⊢
    tauto
  rcases hcases with hother | hother
  · exact hrest other hother
  · exact (hname (List.mem_map.2 ⟨(name, other), hother, rfl⟩)).elim

end Blocks

end Lookups

end PlusCalGo.Go
