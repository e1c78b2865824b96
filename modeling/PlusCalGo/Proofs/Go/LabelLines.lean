import PlusCalGo.Proofs.Go.Landings

/-!
# Rendered labels

Go refuses a label that nothing jumps to as well as a jump that has no label. Which labels are
rendered is decided by the names that the builder has recorded as jumped to, and these are the names
that the rendered lines jump to.
-/

namespace PlusCalGo.Go

/-- The name of the label that a line jumps to. -/
def CodeLine.gotoName? : CodeLine → Option String
  | goto _ name => some name
  | text .. | label .. => none

/-- The names of the labels that the lines of a body declare. -/
def FunctionBody.labelNames (body : FunctionBody Empty) (indent : Nat) : List String :=
  (body.lines indent).filterMap CodeLine.labelName?

/-- The names of the labels that the lines of a body jump to. -/
def FunctionBody.gotoNames (body : FunctionBody Empty) (indent : Nat) : List String :=
  (body.lines indent).filterMap CodeLine.gotoName?

@[simp] private theorem gotos_text (indent : Nat) (content : String) (rest : List CodeLine) :
    (CodeLine.text indent content :: rest).filterMap CodeLine.gotoName? =
      rest.filterMap CodeLine.gotoName? := rfl

namespace Code

variable (targets : List String)

mutual

private theorem gotos_lines (code : PlainCode) (visible : List String) (indent : Nat)
    (isLast : Bool) :
    (code.lines targets indent isLast).filterMap CodeLine.gotoName? =
      (code.jumps visible).map Jump.name := by
  cases code with
  | line text => rfl
  | label name =>
    rw [lines]
    split <;> rfl
  | goto name => rfl
  | branch condition yes no =>
    have hyes := gotos_listLines yes (blockLabels yes ++ visible) (indent + 1)
    have hno := gotos_listLines no (blockLabels no ++ visible) (indent + 1)
    cases no with
    | nil => simp [lines, jumps, hyes, listJumps]
    | cons first rest => simp [lines, jumps, hyes, hno]
  | loop body =>
    simp [lines, jumps, gotos_listLines body (blockLabels body ++ visible) (indent + 1)]
  | switch subject cases => simp [lines, jumps, gotos_casesLines cases visible indent 0]
  | block body =>
    simp [lines, jumps, gotos_listLines body (blockLabels body ++ visible) (indent + 1)]
  | leaf content => exact content.elim

/-- Each jump is rendered as one line, in order. -/
theorem gotos_listLines (code : List PlainCode) (visible : List String) (indent : Nat) :
    (listLines targets indent code).filterMap CodeLine.gotoName? =
      (listJumps visible code).map Jump.name := by
  cases code with
  | nil => rfl
  | cons first rest =>
    rw [listLines, List.filterMap_append, gotos_lines first visible, gotos_listLines rest visible,
      listJumps, List.map_append]

private theorem gotos_casesLines (cases : List (List PlainCode)) (visible : List String)
    (indent index : Nat) :
    (casesLines targets indent index cases).filterMap CodeLine.gotoName? =
      (casesJumps visible cases).map Jump.name := by
  cases cases with
  | nil => rfl
  | cons body rest =>
    simp [casesLines, casesJumps,
      gotos_listLines body (blockLabels body ++ visible) (indent + 1),
      gotos_casesLines rest visible indent (index + 1)]

end

end Code

namespace FunctionContext

variable {context : FunctionContext} {imports needed : Imports} {owner : Uid}
  {locals : List VariableDecl} {body : List Statement} {result : FunctionBody SectionCall}

/-- The rendered lines of a function jump where its statements say: to the labels of its explicit
jumps, and back to the label of a step for each `await`. A label that some line jumps to is declared
by one line, and no other label is declared. -/
theorem label_lines (h : context.body imports owner locals body = .ok (result, needed))
    (indent : Nat) :
    (result.expand SectionCall.code).gotoNames indent =
        (Statement.bodyJumps context.groups body).map Jump.name ∧
      ∀ name, ((result.expand SectionCall.code).labelNames indent).count name =
        if name ∈ (result.expand SectionCall.code).gotoNames indent then 1 else 0 := by
  have hgotos : (result.expand SectionCall.code).gotoNames indent =
      (Statement.bodyJumps context.groups body).map Jump.name := by
    rw [FunctionBody.gotoNames, FunctionBody.lines,
      Code.gotos_listLines _ _ (Code.blockLabels (result.expand SectionCall.code).code),
      ← (jumps_of_body h).1]
    exact congrArg (List.map Jump.name) (Code.bodyJumps_listExpand SectionCall.straight _)
  refine ⟨hgotos, ?_⟩
  intro name
  have hwrite (call : SectionCall) : Code.listLabelNames (call.code : List PlainCode) = [] :=
    call.straight.1
  have hlabels : (result.expand SectionCall.code).labelNames indent =
      (Code.listLabelNames result.code).filter (· ∈ result.targets) := by
    rw [FunctionBody.labelNames, FunctionBody.lines, Code.labels_listLines, FunctionBody.expand,
      Code.labelNames_listExpand hwrite]
  rw [hgotos, hlabels]
  split
  · rename_i hjumped
    obtain ⟨jump, hjump, rfl⟩ := List.mem_map.1 hjumped
    obtain ⟨htarget, hcount⟩ := (jumps_of_body h).2 jump hjump
    rw [List.count_filter (by simpa using htarget)]
    exact hcount
  · rename_i hjumped
    have htarget : name ∉ result.targets := by
      rw [targets_of_body h, List.mem_reverse]
      exact hjumped
    rw [List.count_eq_zero, List.mem_filter]
    simp [htarget]

/-- Label `c` is declared for the jump ahead of it and label `b` for the retry of its `await`, and
label `a` is not rendered. -/
theorem label_lines_retrying :
    let mark (number : UInt32) : Mark := ⟨⟨number⟩, .unknown⟩
    let context : FunctionContext :=
      ⟨⟨[⟨⟨1⟩, "x", .global .plain, .unknown⟩, ⟨⟨2⟩, "self", .processSelf, .unknown⟩],
        [(⟨24⟩, ⟨1⟩)]⟩, ⟨[(⟨16⟩, ⟨0⟩)], [(⟨0⟩, ⟨1⟩)], []⟩, .coordinated [(⟨0⟩, ⟨["x"], []⟩)],
        [⟨⟨1⟩, "x", none, .plain, .unknown⟩]⟩
    let body : List Statement :=
      [.labeled (mark 10) ⟨⟨11⟩, "a"⟩
          [.ifElse (mark 12) (.bool ⟨13⟩ true) [.goto (mark 14) "c"]
            [.labeled (mark 15) ⟨⟨16⟩, "b"⟩
              [.await (mark 22) (.binary ⟨23⟩ .equal (.identifier ⟨24⟩ "x") (.number ⟨25⟩ 2))]]],
        .labeled (mark 20) ⟨⟨21⟩, "c"⟩ [.skip (mark 26)]]
    ∃ result needed, context.body .none ⟨3⟩ [] body = .ok (result, needed) ∧
      (result.expand SectionCall.code).gotoNames 1 = ["c", "b"] ∧
      ((result.expand SectionCall.code).labelNames 1).count "a" = 0 ∧
      ((result.expand SectionCall.code).labelNames 1).count "b" = 1 ∧
      ((result.expand SectionCall.code).labelNames 1).count "c" = 1 := by
  intro mark context body
  cases hbody : context.body .none ⟨3⟩ [] body with
  | error problem =>
    have hok : (context.body .none ⟨3⟩ [] body).isOk = true := by cbv
    rw [hbody] at hok
    cases hok
  | ok made =>
    obtain ⟨result, needed⟩ := made
    obtain ⟨hgotos, hlabels⟩ := label_lines hbody 1
    have hjumps : (Statement.bodyJumps context.groups body).map Jump.name = ["c", "b"] := by decide
    rw [hjumps] at hgotos
    simp only [hgotos] at hlabels
    exact ⟨result, needed, rfl, hgotos, hlabels "a", hlabels "b", hlabels "c"⟩

end FunctionContext

end PlusCalGo.Go
