import PlusCalGo.Proofs.Go.Building
import PlusCalGo.Proofs.Go.LabelLines

/-!
# Statements behind labels

A label stands in front of a statement. Where it is the last one of its block it is rendered with an
empty statement, and else without. But labels that nothing jumps to are not rendered: if only labels
stand behind it and the last of them is left out, the label has no statement.
-/

namespace PlusCalGo

namespace Go

/-- The line has a statement: all lines have, but labels that do not stand alone. -/
def CodeLine.HasStatement : CodeLine → Prop
  | text .. | goto .. => True
  | label _ alone => alone = true

namespace Code

/-! ## Blocks -/

section Blocks

variable {κ : Type}

/-- The blocks that a statement holds. -/
def blocks : Code κ → List (List (Code κ))
  | branch _ yes no => [yes, no]
  | loop body | block body => [body]
  | switch _ cases => cases
  | line _ | label _ | goto _ | leaf _ => []

/-- The block is the body itself, or stands this deep inside of it. -/
inductive Within : Nat → List (Code κ) → List (Code κ) → Prop where
  | here {body : List (Code κ)} : Within 0 body body
  | inside {depth : Nat} {block inner body : List (Code κ)} {code : Code κ} :
      code ∈ body → inner ∈ code.blocks → Within depth block inner →
      Within (depth + 1) block body

end Blocks

/-- The lines behind a block: none behind the body itself, and behind a block inside of it first the
line that ends it, which stands one step further out. -/
def Behind (indent : Nat) : Nat → List CodeLine → Prop
  | 0, later => later = []
  | depth + 1, later => ∃ content rest, later = .text (indent + depth) content :: rest

/-- A label of the body is rendered, with these lines after it: the lines of what stands behind it
in its block, and the lines behind the block. -/
def LabelLine (targets : List String) (indent : Nat) (body : List PlainCode) (name : String)
    (alone : Bool) (after : List CodeLine) : Prop :=
  ∃ depth front behind later, Within depth (front ++ .label name :: behind) body ∧
    alone = behind.isEmpty ∧ after = listLines targets (indent + depth) behind ++ later ∧
    Behind indent depth later

section Lines

variable {targets : List String} {indent : Nat} {name : String} {alone : Bool}
  {before after : List CodeLine}

theorem LabelLine.inside {code : PlainCode} {inner body : List PlainCode} {content : String}
    {rest : List CodeLine} (h : LabelLine targets (indent + 1) inner name alone after)
    (hcode : code ∈ body) (hinner : inner ∈ code.blocks) :
    LabelLine targets indent body name alone (after ++ .text indent content :: rest) := by
  obtain ⟨depth, front, behind, later, hwithin, halone, rfl, hlater⟩ := h
  refine ⟨depth + 1, front, behind, later ++ .text indent content :: rest,
    .inside hcode hinner hwithin, halone, ?_, ?_⟩
  · rw [List.append_assoc, Nat.add_assoc, Nat.add_comm 1]
  · cases depth with
    | zero =>
      rw [show later = [] from hlater]
      exact ⟨content, rest, rfl⟩
    | succ depth =>
      obtain ⟨other, more, rfl⟩ := hlater
      exact ⟨other, more ++ .text indent content :: rest, by
        rw [List.cons_append, Nat.add_assoc, Nat.add_comm 1]⟩

theorem LabelLine.cons {code : PlainCode} {body : List PlainCode}
    (h : LabelLine targets indent body name alone after) :
    LabelLine targets indent (code :: body) name alone after := by
  obtain ⟨depth, front, behind, later, hwithin, halone, hafter, hlater⟩ := h
  refine ⟨depth, ?_⟩
  cases hwithin with
  | here => exact ⟨code :: front, behind, later, .here, halone, hafter, hlater⟩
  | inside hcode hinner hwithin =>
    exact ⟨front, behind, later, .inside (List.mem_cons_of_mem _ hcode) hinner hwithin, halone,
      hafter, hlater⟩

private theorem split_text {content : String} {lines : List CodeLine}
    (h : .text indent content :: lines = before ++ .label name alone :: after) :
    ∃ before, lines = before ++ .label name alone :: after := by
  rcases List.cons_eq_append_iff.1 h with ⟨_, hlabel⟩ | ⟨front, _, hlines⟩
  · cases (List.cons.inj hlabel).1
  · exact ⟨front, hlines⟩

/-- A label among lines and what comes behind them stands in the one or the other. -/
private theorem split_end {content : String} {lines more : List CodeLine}
    (h : lines ++ .text indent content :: more = before ++ .label name alone :: after) :
    (∃ front between, lines = front ++ .label name alone :: between ∧
      after = between ++ .text indent content :: more) ∨
        ∃ front, more = front ++ .label name alone :: after := by
  rcases split_append h with ⟨between, hlines, hafter⟩ | ⟨between, hmore, _⟩
  · exact .inl ⟨before, between, hlines, hafter⟩
  · exact .inr (split_text hmore)

mutual

/-- A label that a statement renders is the statement itself, or stands in a block of it. -/
private theorem labelLine_of_lines (code : PlainCode) {indent : Nat} {isLast : Bool}
    {before after : List CodeLine}
    (h : code.lines targets indent isLast = before ++ .label name alone :: after) :
    (code = .label name ∧ alone = isLast ∧ after = []) ∨
      ∃ inner ∈ code.blocks, ∃ within content rest,
        LabelLine targets (indent + 1) inner name alone within ∧
          after = within ++ .text indent content :: rest := by
  cases code with
  | line text =>
    obtain ⟨_, hnone⟩ := split_text h
    simp at hnone
  | label other =>
    rw [lines] at h
    split at h
    · rcases List.cons_eq_append_iff.1 h with ⟨_, hlabel⟩ | ⟨front, _, hnone⟩
      · cases hlabel
        exact .inl ⟨rfl, rfl, rfl⟩
      · simp at hnone
    · simp at h
  | goto other =>
    rcases List.cons_eq_append_iff.1 h with ⟨_, hlabel⟩ | ⟨front, _, hnone⟩
    · cases (List.cons.inj hlabel).1
    · simp at hnone
  | branch condition yes no =>
    right
    simp only [lines, List.append_assoc, List.cons_append, List.nil_append] at h
    obtain ⟨_, h⟩ := split_text h
    cases no with
    | nil =>
      rcases split_end h with ⟨_, _, hyes, rfl⟩ | ⟨_, hnone⟩
      · exact ⟨yes, List.mem_cons_self, _, _, _, labelLine_of_listLines yes hyes, rfl⟩
      · simp at hnone
    | cons first rest =>
      rcases split_end h with ⟨_, _, hyes, rfl⟩ | ⟨_, h⟩
      · exact ⟨yes, List.mem_cons_self, _, _, _, labelLine_of_listLines yes hyes, rfl⟩
      · rcases split_end h with ⟨_, _, hno, rfl⟩ | ⟨_, hnone⟩
        · exact ⟨first :: rest, by simp [blocks], _, _, _, labelLine_of_listLines _ hno, rfl⟩
        · simp at hnone
  | loop body =>
    obtain ⟨_, h⟩ := split_text h
    rcases split_end h with ⟨_, _, hbody, rfl⟩ | ⟨_, hnone⟩
    · exact .inr ⟨body, List.mem_cons_self, _, _, _, labelLine_of_listLines body hbody, rfl⟩
    · simp at hnone
  | switch subject cases =>
    obtain ⟨_, h⟩ := split_text h
    rcases split_end h with ⟨_, _, hcases, rfl⟩ | ⟨_, hnone⟩
    · obtain ⟨inner, hinner, within, more, hline, rfl, hmore⟩ :=
        labelLine_of_casesLines cases hcases
      refine .inr ⟨inner, hinner, within, ?_⟩
      rcases hmore with rfl | ⟨content, rest, rfl⟩
      · exact ⟨_, _, hline, by rw [List.append_nil]⟩
      · exact ⟨_, _, hline, List.append_assoc ..⟩
    · simp at hnone
  | block body =>
    obtain ⟨_, h⟩ := split_text h
    rcases split_end h with ⟨_, _, hbody, rfl⟩ | ⟨_, hnone⟩
    · exact .inr ⟨body, List.mem_cons_self, _, _, _, labelLine_of_listLines body hbody, rfl⟩
    · simp at hnone
  | leaf content => exact content.elim

/-- Every label that is rendered stands in a block of the body. -/
theorem labelLine_of_listLines (body : List PlainCode) {indent : Nat} {before after : List CodeLine}
    (h : listLines targets indent body = before ++ .label name alone :: after) :
    LabelLine targets indent body name alone after := by
  cases body with
  | nil => simp [listLines] at h
  | cons code rest =>
    rw [listLines] at h
    rcases split_append h with ⟨between, hcode, rfl⟩ | ⟨between, hrest, _⟩
    · rcases labelLine_of_lines code hcode with ⟨rfl, rfl, rfl⟩ |
        ⟨inner, hinner, within, content, more, hline, rfl⟩
      · exact ⟨0, [], rest, [], .here, rfl, by simp, rfl⟩
      · rw [List.append_assoc]
        exact hline.inside List.mem_cons_self hinner
    · exact (labelLine_of_listLines rest hrest).cons

private theorem labelLine_of_casesLines (cases : List (List PlainCode)) {indent index : Nat}
    {before after : List CodeLine}
    (h : casesLines targets indent index cases = before ++ .label name alone :: after) :
    ∃ inner ∈ cases, ∃ within more, LabelLine targets (indent + 1) inner name alone within ∧
      after = within ++ more ∧
        (more = [] ∨ ∃ content rest, more = .text indent content :: rest) := by
  cases cases with
  | nil => simp [casesLines] at h
  | cons body rest =>
    obtain ⟨_, h⟩ := split_text h
    rcases split_append h with ⟨between, hbody, rfl⟩ | ⟨between, hrest, _⟩
    · refine ⟨body, List.mem_cons_self, between, _, labelLine_of_listLines body hbody, rfl, ?_⟩
      cases rest with
      | nil => exact .inl rfl
      | cons next others => exact .inr ⟨_, _, rfl⟩
    · obtain ⟨inner, hinner, hline⟩ := labelLine_of_casesLines rest hrest
      exact ⟨inner, List.mem_cons_of_mem body hinner, hline⟩

end

end Lines

/-! ## What stands behind a label -/

section Statements

variable (targets : List String) (indent : Nat)

theorem mem_listLines {code : PlainCode} {body : List PlainCode} (hcode : code ∈ body) :
    ∃ isLast, ∀ line ∈ code.lines targets indent isLast, line ∈ listLines targets indent body := by
  induction body with
  | nil => simp at hcode
  | cons first rest ih =>
    rcases List.mem_cons.1 hcode with rfl | hrest
    · exact ⟨_, fun line => List.mem_append_left _⟩
    · obtain ⟨isLast, hlines⟩ := ih hrest
      exact ⟨isLast, fun line hline => List.mem_append_right _ (hlines line hline)⟩

/-- Only labels can be rendered without a statement. -/
theorem exists_hasStatement (isLast : Bool) {code : PlainCode}
    (hcode : ∀ name, code ≠ .label name) :
    ∃ line ∈ code.lines targets indent isLast, line.HasStatement := by
  cases code with
  | line text => exact ⟨_, List.mem_cons_self, trivial⟩
  | label name => exact (hcode name rfl).elim
  | goto name => exact ⟨_, List.mem_cons_self, trivial⟩
  | branch condition yes no => exact ⟨_, List.mem_cons_self, trivial⟩
  | loop body => exact ⟨_, List.mem_cons_self, trivial⟩
  | switch subject cases => exact ⟨_, List.mem_cons_self, trivial⟩
  | block body => exact ⟨_, List.mem_cons_self, trivial⟩
  | leaf content => exact content.elim

/-- Labels have a statement if the last one is rendered. -/
theorem hasStatement_labels (labels : List String) (last : String) :
    (∃ line ∈ listLines targets indent ((labels ++ [last]).map .label), line.HasStatement) ↔
      last ∈ targets := by
  induction labels with
  | nil =>
    by_cases hlast : last ∈ targets <;> simp [listLines, lines, hlast, CodeLine.HasStatement]
  | cons first rest ih =>
    rw [← ih]
    by_cases hfirst : first ∈ targets <;> simp [listLines, lines, hfirst, CodeLine.HasStatement]

theorem labels_or_exists (body : List PlainCode) :
    (∃ labels : List String, body = labels.map .label) ∨
      ∃ code ∈ body, ∀ name, code ≠ .label name := by
  induction body with
  | nil => exact .inl ⟨[], rfl⟩
  | cons code rest ih =>
    by_cases hcode : ∃ name, code = .label name
    · obtain ⟨name, rfl⟩ := hcode
      rcases ih with ⟨labels, rfl⟩ | ⟨other, hother, hstatement⟩
      · exact .inl ⟨name :: labels, rfl⟩
      · exact .inr ⟨other, List.mem_cons_of_mem _ hother, hstatement⟩
    · exact .inr ⟨code, List.mem_cons_self, fun name hname => hcode ⟨name, hname⟩⟩

/-- Behind a label that does not stand alone there is a statement, unless there are only labels of
which the last one is not rendered. -/
theorem hasStatement_iff (behind : List PlainCode) :
    (behind.isEmpty = true ∨ ∃ line ∈ listLines targets indent behind, line.HasStatement) ↔
      ¬ ∃ labels last, behind = (labels ++ [last]).map .label ∧ last ∉ targets := by
  rcases labels_or_exists behind with ⟨labels, rfl⟩ | ⟨code, hcode, hstatement⟩
  · induction labels using List.reverseRecOn with
    | nil => simp
    | append_singleton labels last =>
      rw [hasStatement_labels, or_iff_right (by simp)]
      constructor
      · intro hlast
        rintro ⟨others, other, heq, hother⟩
        have hnames := List.map_injective_iff.2 (fun _ _ h => Code.label.inj h) heq
        obtain ⟨_, hsame⟩ := List.append_inj' hnames rfl
        exact hother ((List.cons.inj hsame).1 ▸ hlast)
      · intro h
        by_contra hlast
        exact h ⟨labels, last, rfl, hlast⟩
  · obtain ⟨isLast, hlines⟩ := mem_listLines targets indent hcode
    obtain ⟨line, hline, hhas⟩ := exists_hasStatement targets indent isLast hstatement
    refine iff_of_true (.inr ⟨line, hlines line hline, hhas⟩) ?_
    rintro ⟨labels, last, rfl, _⟩
    obtain ⟨name, _, rfl⟩ := List.mem_map.1 hcode
    exact hstatement name rfl

end Statements

end Code

namespace FunctionContext

variable {context : FunctionContext} {imports needed : Imports} {owner : Uid}
  {locals : List VariableDecl} {body : List Statement} {result : FunctionBody SectionCall}

/-- Every rendered label of a function stands in a block, the rest of which is rendered right after
it. It stands alone with an empty statement, or a line with a statement follows in the block, unless
only labels stand behind it there and nothing jumps to the last of them. -/
theorem label_statements (h : context.body imports owner locals body = .ok (result, needed))
    (indent : Nat) {name : String} {alone : Bool} {before after : List CodeLine}
    (hlines : (result.expand SectionCall.code).lines indent =
      before ++ .label name alone :: after) :
    ∃ depth front behind later,
      Code.Within depth (front ++ .label name :: behind) (result.expand SectionCall.code).code ∧
      after = Code.listLines result.targets (indent + depth) behind ++ later ∧
      Code.Behind indent depth later ∧
      ((alone = true ∨
          ∃ line ∈ Code.listLines result.targets (indent + depth) behind, line.HasStatement) ↔
        ¬ ∃ labels last, behind = (labels ++ [last]).map .label ∧
          last ∉ (Statement.bodyJumps context.groups body).map Jump.name) := by
  obtain ⟨depth, front, behind, later, hwithin, rfl, hafter, hlater⟩ :=
    Code.labelLine_of_listLines _ hlines
  refine ⟨depth, front, behind, later, hwithin, hafter, hlater, ?_⟩
  rw [Code.hasStatement_iff, targets_of_body h]
  simp only [List.mem_reverse]

/-- Label `c` is not rendered. Behind label `b`, label `d` has the statement. -/
theorem label_statements_sharing :
    let mark (number : UInt32) : Mark := ⟨⟨number⟩, .unknown⟩
    let context : FunctionContext :=
      ⟨⟨[⟨⟨2⟩, "self", .processSelf, .unknown⟩], []⟩, ⟨[], [], []⟩, .inProcess, []⟩
    let body : List Statement :=
      [.labeled (mark 10) ⟨⟨11⟩, "a"⟩
          [.ifElse (mark 12) (.bool ⟨13⟩ true) [.goto (mark 14) "b"] [.goto (mark 15) "d"]],
        .labeled (mark 20) ⟨⟨21⟩, "b"⟩ [.skip (mark 22)],
        .labeled (mark 30) ⟨⟨31⟩, "c"⟩ [.skip (mark 32)],
        .labeled (mark 40) ⟨⟨41⟩, "d"⟩ [.skip (mark 42)]]
    let result : FunctionBody SectionCall :=
      ⟨[.label "a", .branch "true" [.goto "b"] [.goto "d"], .label "b", .label "c", .label "d"],
        ["d", "b"]⟩
    context.body .none ⟨1⟩ [] body = .ok (result, .none) ∧ ∃ before after,
      (result.expand SectionCall.code).lines 1 = before ++ .label "b" false :: after ∧
      ∃ depth front behind later,
        Code.Within depth (front ++ .label "b" :: behind) (result.expand SectionCall.code).code ∧
        after = Code.listLines result.targets (1 + depth) behind ++ later ∧
        Code.Behind 1 depth later ∧
        ((false = true ∨
            ∃ line ∈ Code.listLines result.targets (1 + depth) behind, line.HasStatement) ↔
          ¬ ∃ labels last, behind = (labels ++ [last]).map .label ∧
            last ∉ (Statement.bodyJumps context.groups body).map Jump.name) := by
  intro mark context body result
  have hbody : context.body .none ⟨1⟩ [] body = .ok (result, .none) := by cbv
  have hlines : (result.expand SectionCall.code).lines 1 =
      [.text 1 "if true \x7b", .goto 2 "b", .text 1 "\x7d else \x7b", .goto 2 "d",
        .text 1 "\x7d"] ++ .label "b" false :: [.label "d" true] := by decide
  exact ⟨hbody, _, _, hlines, label_statements hbody 1 hlines⟩

end FunctionContext

end Go

namespace Algorithm

open Go

/-! ## A label without a statement

Step `a` goes to the label `b`. Behind it stands label `c`, which nothing jumps to. -/

private def stranding : Algorithm :=
  let mark (number : UInt32) : Mark := ⟨⟨number⟩, .unknown⟩
  ⟨"T", [], [], [],
    [⟨⟨1⟩, "P", ⟨2⟩, .single (.number ⟨3⟩ 1), [],
      [.labeled (mark 10) ⟨⟨11⟩, "a"⟩
          [.ifElse (mark 12) (.bool ⟨13⟩ true) [.goto (mark 14) "b"] []],
        .labeled (mark 20) ⟨⟨21⟩, "b"⟩ [.skip (mark 22)],
        .labeled (mark 30) ⟨⟨31⟩, "c"⟩ [.skip (mark 32)]]⟩]⟩

private def strandingDefinitions : Definitions :=
  ⟨[⟨⟨2⟩, "self", .processSelf, .unknown⟩], []⟩

private def strandingAtomicity : Atomicity :=
  ⟨⟨[], [], []⟩, ⟨"T", [], ["P.a", "P.b", "P.c"]⟩, []⟩

private def strandingProgram : Program :=
  ⟨"T", "main", .none, [], .mutexes 0,
    [⟨"P", [], ⟨[.label "a", .branch "true" [.goto "b"] [], .label "b", .label "c"], ["b"]⟩⟩],
    [.single "P" "1"]⟩

/-- The line of label `b` has no empty statement, and no line follows it. -/
theorem label_without_statement :
    stranding.resolve = .ok strandingDefinitions ∧
      stranding.inferAtomicity strandingDefinitions = .ok strandingAtomicity ∧
      stranding.toGo strandingDefinitions strandingAtomicity.groups .default =
        .ok strandingProgram ∧
      ∃ function ∈ strandingProgram.functions, ∃ before,
        function.written.lines 1 = before ++ [.label "b" false] := by
  refine ⟨by cbv, by cbv, by cbv, _, List.mem_singleton_self _,
    [.text 1 "if true \x7b", .goto 2 "b", .text 1 "\x7d"], ?_⟩
  decide

end Algorithm

end PlusCalGo
