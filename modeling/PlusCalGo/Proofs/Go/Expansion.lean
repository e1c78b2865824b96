import PlusCalGo.Proofs.Go.Lifting

/-!
# Code that is written out

Writing the leaves of code out twice is writing them out at once. It puts the leaves of what is
written in their place, and leaves the labels as they are where none is written.
-/

namespace PlusCalGo.Go

variable {κ ι : Type}

namespace Code

section Twice

variable {μ : Type} (first : κ → List (Code μ)) (second : μ → List (Code ι))

mutual

private theorem listExpand_expand (code : Code κ) :
    listExpand second (code.expand first) =
      code.expand fun content => listExpand second (first content) := by
  cases code with
  | branch condition yes no =>
    simp [expand, listExpand, listExpand_listExpand yes, listExpand_listExpand no]
  | loop body => simp [expand, listExpand, listExpand_listExpand body]
  | block body => simp [expand, listExpand, listExpand_listExpand body]
  | switch subject cases => simp [expand, listExpand, casesExpand_casesExpand cases]
  | line text => rfl
  | label name => rfl
  | goto name => rfl
  | leaf content => rfl

/-- Leaves that are written out twice may be written out at once. -/
theorem listExpand_listExpand (code : List (Code κ)) :
    listExpand second (listExpand first code) =
      listExpand (fun content => listExpand second (first content)) code := by
  cases code with
  | nil => rfl
  | cons head rest =>
    rw [listExpand, listExpand_append, listExpand_expand head, listExpand_listExpand rest,
      listExpand]

private theorem casesExpand_casesExpand (cases : List (List (Code κ))) :
    casesExpand second (casesExpand first cases) =
      casesExpand (fun content => listExpand second (first content)) cases := by
  cases cases with
  | nil => rfl
  | cons body rest =>
    rw [casesExpand, casesExpand, listExpand_listExpand body, casesExpand_casesExpand rest,
      casesExpand]

end

end Twice

section Leaves

variable (write : κ → List (Code ι))

mutual

private theorem leaves_expand (code : Code κ) :
    listLeaves (code.expand write) = code.leaves.flatMap fun leaf => listLeaves (write leaf) := by
  cases code with
  | line text => rfl
  | label name => rfl
  | goto name => rfl
  | branch condition yes no =>
    rw [expand, leaves, List.flatMap_append, ← leaves_listExpand yes, ← leaves_listExpand no,
      listLeaves, leaves, listLeaves, List.append_nil]
  | loop body =>
    rw [expand, leaves, ← leaves_listExpand body, listLeaves, leaves, listLeaves, List.append_nil]
  | switch subject cases =>
    rw [expand, leaves, ← leaves_casesExpand cases, listLeaves, leaves, listLeaves,
      List.append_nil]
  | block body =>
    rw [expand, leaves, ← leaves_listExpand body, listLeaves, leaves, listLeaves, List.append_nil]
  | leaf content => rw [expand, leaves, List.flatMap_singleton]

theorem leaves_listExpand (code : List (Code κ)) :
    listLeaves (listExpand write code) =
      (listLeaves code).flatMap fun leaf => listLeaves (write leaf) := by
  cases code with
  | nil => rfl
  | cons first rest =>
    rw [listExpand, listLeaves_append, leaves_expand first, leaves_listExpand rest, listLeaves,
      List.flatMap_append]

private theorem leaves_casesExpand (cases : List (List (Code κ))) :
    casesLeaves (casesExpand write cases) =
      (casesLeaves cases).flatMap fun leaf => listLeaves (write leaf) := by
  cases cases with
  | nil => rfl
  | cons body rest =>
    rw [casesExpand, casesLeaves, casesLeaves, leaves_listExpand body, leaves_casesExpand rest,
      List.flatMap_append]

end

end Leaves

section Labels

variable {write : κ → List (Code ι)}

mutual

private theorem labelNames_expand (hwrite : ∀ leaf, listLabelNames (write leaf) = [])
    (code : Code κ) :
    listLabelNames (code.expand write) = code.labelNames := by
  cases code with
  | line text => rfl
  | label name => rfl
  | goto name => rfl
  | branch condition yes no =>
    rw [expand, listLabelNames, labelNames, labelNames_listExpand hwrite yes,
      labelNames_listExpand hwrite no, listLabelNames, List.append_nil, labelNames]
  | loop body =>
    rw [expand, listLabelNames, labelNames, labelNames_listExpand hwrite body, listLabelNames,
      List.append_nil, labelNames]
  | switch subject cases =>
    rw [expand, listLabelNames, labelNames, labelNames_casesExpand hwrite cases, listLabelNames,
      List.append_nil, labelNames]
  | block body =>
    rw [expand, listLabelNames, labelNames, labelNames_listExpand hwrite body, listLabelNames,
      List.append_nil, labelNames]
  | leaf content => exact hwrite content

theorem labelNames_listExpand (hwrite : ∀ leaf, listLabelNames (write leaf) = [])
    (code : List (Code κ)) :
    listLabelNames (listExpand write code) = listLabelNames code := by
  cases code with
  | nil => rfl
  | cons first rest =>
    rw [listExpand, listLabelNames_append, labelNames_expand hwrite first,
      labelNames_listExpand hwrite rest, listLabelNames]

private theorem labelNames_casesExpand (hwrite : ∀ leaf, listLabelNames (write leaf) = [])
    (cases : List (List (Code κ))) :
    casesLabelNames (casesExpand write cases) = casesLabelNames cases := by
  cases cases with
  | nil => rfl
  | cons body rest =>
    rw [casesExpand, casesLabelNames, casesLabelNames, labelNames_listExpand hwrite body,
      labelNames_casesExpand hwrite rest]

end

end Labels

end Code

/-- Code without remarks has the calls that it has with remarks. -/
theorem NotedCode.leaves_erase (code : NotedCode) :
    Code.listLeaves code.erase = callsOf (Code.listLeaves code) := by
  rw [erase, Code.leaves_listExpand]
  induction Code.listLeaves code with
  | nil => rfl
  | cons note rest ih =>
    rw [List.flatMap_cons, ih]
    cases note <;> rfl

theorem NotedCode.labelNames_erase (code : NotedCode) :
    Code.listLabelNames code.erase = Code.listLabelNames code := by
  refine Code.labelNames_listExpand ?_ code
  intro note
  cases note <;> rfl

end PlusCalGo.Go
