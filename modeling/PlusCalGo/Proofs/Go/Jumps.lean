import PlusCalGo.Proofs.Go.Expansion

/-!
# Jumps and blocks

Go accepts a jump to a label in the block the jump stands in or in a block around it, and to no
other label. A jump is therefore told with the labels of the blocks around it.
-/

namespace PlusCalGo.Go

/-- A jump to a label, and the labels of all blocks around the jump, of inner blocks first. -/
structure Jump where
  name : String
  visible : List String
deriving DecidableEq

/-- Go lets the jump reach its label. -/
def Jump.Allowed (jump : Jump) : Prop := jump.name ∈ jump.visible

instance : DecidablePred Jump.Allowed := fun jump =>
  inferInstanceAs (Decidable (jump.name ∈ jump.visible))

namespace Code

variable {κ ι : Type}

/-- The labels that stand in a block itself. -/
def blockLabels : List (Code κ) → List String
  | [] => []
  | label name :: rest => name :: blockLabels rest
  | _ :: rest => blockLabels rest

mutual

/-- The jumps in a statement in their order, given the labels that are visible around it. -/
def jumps (visible : List String) : Code κ → List Jump
  | goto name => [⟨name, visible⟩]
  | line _ | label _ | leaf _ => []
  | branch _ yes no =>
    listJumps (blockLabels yes ++ visible) yes ++ listJumps (blockLabels no ++ visible) no
  | loop body | block body => listJumps (blockLabels body ++ visible) body
  | switch _ cases => casesJumps visible cases

def listJumps (visible : List String) : List (Code κ) → List Jump
  | [] => []
  | code :: rest => code.jumps visible ++ listJumps visible rest

def casesJumps (visible : List String) : List (List (Code κ)) → List Jump
  | [] => []
  | body :: rest => listJumps (blockLabels body ++ visible) body ++ casesJumps visible rest

end

/-- The jumps in the body of a function. -/
def bodyJumps (body : List (Code κ)) : List Jump := listJumps (blockLabels body) body

@[simp] theorem blockLabels_append (first second : List (Code κ)) :
    blockLabels (first ++ second) = blockLabels first ++ blockLabels second := by
  induction first with
  | nil => rfl
  | cons code rest ih => cases code <;> simp [blockLabels, ih]

@[simp] theorem listJumps_append (visible : List String) (first second : List (Code κ)) :
    listJumps visible (first ++ second) = listJumps visible first ++ listJumps visible second := by
  induction first with
  | nil => rfl
  | cons code rest ih => rw [List.cons_append, listJumps, ih, listJumps, List.append_assoc]

/-! ## Code that is written out -/

/-- Code in which control goes on from one statement to the next or ends. -/
def Straight (code : List (Code κ)) : Prop :=
  listLabelNames code = [] ∧ blockLabels code = [] ∧ ∀ visible, listJumps visible code = []

theorem Straight.nil : Straight ([] : List (Code κ)) := ⟨rfl, rfl, fun _ => rfl⟩

theorem Straight.append {first second : List (Code κ)} (hfirst : Straight first)
    (hsecond : Straight second) : Straight (first ++ second) := by
  obtain ⟨hfirstNames, hfirstLabels, hfirstJumps⟩ := hfirst
  obtain ⟨hsecondNames, hsecondLabels, hsecondJumps⟩ := hsecond
  refine ⟨?_, ?_, fun visible => ?_⟩
  · rw [listLabelNames_append, hfirstNames, hsecondNames, List.append_nil]
  · rw [blockLabels_append, hfirstLabels, hsecondLabels, List.append_nil]
  · rw [listJumps_append, hfirstJumps, hsecondJumps, List.append_nil]

theorem Straight.map {α : Type} {items : List α} {code : α → Code κ}
    (h : ∀ item, Straight [code item]) : Straight (items.map code) := by
  induction items with
  | nil => exact .nil
  | cons item rest ih => exact (h item).append ih

section Expand

variable {write : κ → List (Code ι)}

theorem blockLabels_listExpand (hwrite : ∀ leaf, Straight (write leaf)) (code : List (Code κ)) :
    blockLabels (listExpand write code) = blockLabels code := by
  induction code with
  | nil => rfl
  | cons first rest ih =>
    rw [listExpand, blockLabels_append, ih]
    cases first with
    | leaf content =>
      rw [expand, (hwrite content).2.1]
      rfl
    | label name => rfl
    | line text => rfl
    | goto name => rfl
    | branch condition yes no => rfl
    | loop body => rfl
    | switch subject cases => rfl
    | block body => rfl

mutual

private theorem jumps_expand (hwrite : ∀ leaf, Straight (write leaf)) (visible : List String)
    (code : Code κ) : listJumps visible (code.expand write) = code.jumps visible := by
  cases code with
  | line text => rfl
  | label name => rfl
  | goto name => rfl
  | branch condition yes no =>
    rw [expand, listJumps, jumps, blockLabels_listExpand hwrite, blockLabels_listExpand hwrite,
      jumps_listExpand hwrite _ yes, jumps_listExpand hwrite _ no, listJumps, List.append_nil,
      jumps]
  | loop body =>
    rw [expand, listJumps, jumps, blockLabels_listExpand hwrite, jumps_listExpand hwrite _ body,
      listJumps, List.append_nil, jumps]
  | switch subject cases =>
    rw [expand, listJumps, jumps, jumps_casesExpand hwrite _ cases, listJumps, List.append_nil,
      jumps]
  | block body =>
    rw [expand, listJumps, jumps, blockLabels_listExpand hwrite, jumps_listExpand hwrite _ body,
      listJumps, List.append_nil, jumps]
  | leaf content => exact (hwrite content).2.2 visible

/-- Leaves that are written out as straight code add no jumps. -/
theorem jumps_listExpand (hwrite : ∀ leaf, Straight (write leaf)) (visible : List String)
    (code : List (Code κ)) :
    listJumps visible (listExpand write code) = listJumps visible code := by
  cases code with
  | nil => rfl
  | cons first rest =>
    rw [listExpand, listJumps_append, jumps_expand hwrite _ first, jumps_listExpand hwrite _ rest,
      listJumps]

private theorem jumps_casesExpand (hwrite : ∀ leaf, Straight (write leaf)) (visible : List String)
    (cases : List (List (Code κ))) :
    casesJumps visible (casesExpand write cases) = casesJumps visible cases := by
  cases cases with
  | nil => rfl
  | cons body rest =>
    rw [casesExpand, casesJumps, blockLabels_listExpand hwrite, jumps_listExpand hwrite _ body,
      jumps_casesExpand hwrite _ rest, casesJumps]

end

theorem bodyJumps_listExpand (hwrite : ∀ leaf, Straight (write leaf)) (code : List (Code κ)) :
    bodyJumps (listExpand write code) = bodyJumps code := by
  rw [bodyJumps, blockLabels_listExpand hwrite, jumps_listExpand hwrite, bodyJumps]

end Expand

end Code

open Code

private theorem straight_checkedCall {κ : Type} (call : String) :
    Straight [(checkedCall call : Code κ)] :=
  ⟨rfl, rfl, fun _ => rfl⟩

/-- The calls of sections neither jump nor are they jumped to. -/
theorem SectionCall.straight {κ : Type} (call : SectionCall) :
    Straight (call.code : List (Code κ)) := by
  obtain ⟨strategy, action, group⟩ := call
  cases strategy with
  | inProcess => cases action <;> exact ⟨rfl, rfl, fun _ => rfl⟩
  | coordinated shared =>
    cases action with
    | acquire =>
      refine (straight_checkedCall _).append ?_
      cases (Strategy.coordinated shared).sharedGlobals? group with
      | none => exact .nil
      | some globals => exact .map fun name => ⟨rfl, rfl, fun _ => rfl⟩
    | release =>
      refine Straight.append ?_ (straight_checkedCall _)
      cases (Strategy.coordinated shared).sharedGlobals? group with
      | none => exact .nil
      | some globals => exact .map fun name => straight_checkedCall _
    | abort => exact straight_checkedCall _

/-- Remarks are not where jumps stand. -/
theorem NotedCode.bodyJumps_erase (code : NotedCode) :
    bodyJumps code.erase = bodyJumps code := by
  refine bodyJumps_listExpand ?_ code
  intro note
  cases note <;> exact ⟨rfl, rfl, fun _ => rfl⟩

end PlusCalGo.Go
