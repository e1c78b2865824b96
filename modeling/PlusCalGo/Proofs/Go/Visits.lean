import PlusCalGo.Proofs.Go.Success

/-!
# Visits

Which statements lowering comes to, in which state, and what can go wrong at one of them. Lowering
fails only at a statement that it has come to.
-/

namespace PlusCalGo

/-- The expressions of which a statement itself needs the text. -/
def Statement.expressions : Statement → List Expression
  | whileDo _ condition _ | ifElse _ condition _ _ => [condition]
  | assign _ pairs => pairs.flatMap fun pair => [pair.lhs, pair.rhs]
  | call _ _ arguments => arguments
  | withDo _ bindings _ => bindings.filterMap (·.value)
  | print _ value | assert _ value | await _ value => [value]
  | labeled .. | either .. | leave _ | skip _ | macroCall .. | goto .. => []

namespace Go

open Noting

/-- The innermost label around a statement, and the tracker that lowering reached the label with. -/
structure Arrival where
  label : Label
  tracker : Tracker

/-- A statement that lowering comes to, and the state it finds. -/
structure Visit where
  arrival? : Option Arrival
  statement : Statement
  state : Progress

def Visit.label? (visit : Visit) : Option Label := visit.arrival?.map (·.label)

section Visits

variable (definitions : Definitions) (targets : List String)

/-- Lowers the statements of a branch, and closes the section after them if branches do. -/
def noteBranch (label? : Option Label) (closeSection : Bool) (body : List Statement) :
    Noting NotedCode :=
  noteStatements definitions targets label? body ++ if closeSection then close else pure []

/-- Lowering the statements from a state on comes to a statement in them. -/
inductive Visits : Option Arrival → List Statement → Progress → Visit → Prop
  | here {arrival? : Option Arrival} {statement : Statement} {rest : List Statement}
      {state : Progress} : Visits arrival? (statement :: rest) state ⟨arrival?, statement, state⟩
  | later {arrival? : Option Arrival} {statement : Statement} {rest : List Statement}
      {state after : Progress} {code : NotedCode} {visit : Visit} :
    noteStatement definitions targets (arrival?.map (·.label)) statement state =
      .ok (code, after) → Visits arrival? rest after visit →
        Visits arrival? (statement :: rest) state visit
  | labeled {arrival? : Option Arrival} {mark : Mark} {label : Label} {body rest : List Statement}
      {state reached started : Progress} {front opening : NotedCode} {visit : Visit} :
    (if label.name ∈ targets then close else pure []) state = .ok (front, reached) →
      label.name ∉ reached.labels →
      start label.uid label.name { reached with labels := label.name :: reached.labels } =
        .ok (opening, started) → Visits (some ⟨label, reached.tracker⟩) body started visit →
          Visits arrival? (.labeled mark label body :: rest) state visit
  | loop {arrival? : Option Arrival} {mark : Mark} {condition : Expression}
      {body rest : List Statement} {state : Progress} {text : String} {visit : Visit} :
    condition.toGo definitions = .ok text → Visits arrival? body state visit →
      Visits arrival? (.whileDo mark condition body :: rest) state visit
  | yes {arrival? : Option Arrival} {mark : Mark} {condition : Expression}
      {yes no rest : List Statement} {state : Progress} {text : String} {visit : Visit} :
    condition.toGo definitions = .ok text → Visits arrival? yes state visit →
      Visits arrival? (.ifElse mark condition yes no :: rest) state visit
  | no {arrival? : Option Arrival} {mark : Mark} {condition : Expression}
      {yes no rest : List Statement} {state last : Progress} {text : String} {code : NotedCode}
      {visit : Visit} :
    condition.toGo definitions = .ok text →
      noteBranch definitions targets (arrival?.map (·.label))
        (Statement.anyTransfersControl yes || Statement.anyTransfersControl no) yes state =
          .ok (code, last) →
        Visits arrival? no { last with tracker := state.tracker } visit →
          Visits arrival? (.ifElse mark condition yes no :: rest) state visit
  | case {arrival? : Option Arrival} {mark : Mark} {earlier cases : List (List Statement)}
      {body rest : List Statement} {state last : Progress} {codes : List NotedCode}
      {first : Option Tracker} {visit : Visit} :
    noteCases definitions targets (arrival?.map (·.label))
      (Statement.anyCaseTransfersControl (earlier ++ body :: cases)) none earlier state =
        .ok ((codes, first), last) → Visits arrival? body last visit →
          Visits arrival? (.either mark (earlier ++ body :: cases) :: rest) state visit
  | inside {arrival? : Option Arrival} {mark : Mark} {bindings : List VariableDecl}
      {body rest : List Statement} {state bound : Progress} {code : NotedCode} {visit : Visit} :
    noteBindings definitions (arrival?.map (·.label)) bindings state = .ok (code, bound) →
      Visits arrival? body bound visit →
        Visits arrival? (.withDo mark bindings body :: rest) state visit

/-- The tracker at the end of a loop differs from the one its condition was checked with. -/
def Strays (visit : Visit) (problem : Diagnostic) : Prop :=
  ∃ mark condition body text inner between back after,
    visit.statement = .whileDo mark condition body ∧ condition.toGo definitions = .ok text ∧
    noteStatements definitions targets visit.label? body visit.state = .ok (inner, between) ∧
    endLoop visit.state.tracker.label between = .ok (back, after) ∧
    after.tracker.checkCompatible visit.state.tracker = .error problem

/-- All branches of one statement end in the same tracker. -/
structure Joins (visit : Visit) : Prop where
  branches : ∀ mark condition yes no yesCode yesLast noCode noLast,
    visit.statement = .ifElse mark condition yes no →
    noteBranch definitions targets visit.label?
      (Statement.anyTransfersControl yes || Statement.anyTransfersControl no) yes visit.state =
        .ok (yesCode, yesLast) →
    noteBranch definitions targets visit.label?
      (Statement.anyTransfersControl yes || Statement.anyTransfersControl no) no
      { yesLast with tracker := visit.state.tracker } = .ok (noCode, noLast) →
        noLast.tracker = yesLast.tracker
  cases : ∀ mark earlier body later codes first before code last,
    visit.statement = .either mark (earlier ++ body :: later) →
    noteCases definitions targets visit.label?
      (Statement.anyCaseTransfersControl (earlier ++ body :: later)) none earlier visit.state =
        .ok ((codes, some first), before) →
    noteBranch definitions targets visit.label?
      (Statement.anyCaseTransfersControl (earlier ++ body :: later)) body before =
        .ok (code, last) → last.tracker = first

/-- What can go wrong at a statement once all statements in it are lowered. -/
inductive Fault : Visit → Diagnostic → Prop
  | text {visit : Visit} {expression : Expression} {problem : Diagnostic} :
    expression ∈ visit.statement.expressions → expression.toGo definitions = .error problem →
      Fault visit problem
  | redeclared {arrival? : Option Arrival} {mark : Mark} {label : Label} {body : List Statement}
      {state : Progress} :
    label.name ∈ state.labels →
      Fault ⟨arrival?, .labeled mark label body, state⟩ (.of (.codeLabelRedeclared label.name))
  | opening {arrival? : Option Arrival} {mark : Mark} {label : Label} {body : List Statement}
      {state reached : Progress} {front : NotedCode} {problem : Diagnostic} :
    (if label.name ∈ targets then close else pure []) state = .ok (front, reached) →
      start label.uid label.name { reached with labels := label.name :: reached.labels } =
        .error problem → Fault ⟨arrival?, .labeled mark label body, state⟩ problem
  | closing {arrival? : Option Arrival} {mark : Mark} {condition : Expression}
      {body : List Statement} {state between : Progress} {inner : NotedCode}
      {problem : Diagnostic} :
    noteStatements definitions targets (arrival?.map (·.label)) body state =
      .ok (inner, between) → endLoop state.tracker.label between = .error problem →
        Fault ⟨arrival?, .whileDo mark condition body, state⟩ problem
  | loop {visit : Visit} {problem : Diagnostic} :
    Strays definitions targets visit problem → Fault visit problem
  | branches {arrival? : Option Arrival} {mark : Mark} {condition : Expression}
      {yes no : List Statement} {state yesLast noLast : Progress} {yesCode noCode : NotedCode}
      {problem : Diagnostic} :
    noteBranch definitions targets (arrival?.map (·.label))
      (Statement.anyTransfersControl yes || Statement.anyTransfersControl no) yes state =
        .ok (yesCode, yesLast) →
      noteBranch definitions targets (arrival?.map (·.label))
        (Statement.anyTransfersControl yes || Statement.anyTransfersControl no) no
        { yesLast with tracker := state.tracker } = .ok (noCode, noLast) →
        yesLast.tracker.checkCompatible noLast.tracker = .error problem →
          Fault ⟨arrival?, .ifElse mark condition yes no, state⟩ problem
  | cases {arrival? : Option Arrival} {mark : Mark} {earlier cases : List (List Statement)}
      {body : List Statement} {state before last : Progress} {codes : List NotedCode}
      {first : Tracker} {code : NotedCode} {problem : Diagnostic} :
    noteCases definitions targets (arrival?.map (·.label))
      (Statement.anyCaseTransfersControl (earlier ++ body :: cases)) none earlier state =
        .ok ((codes, some first), before) →
      noteBranch definitions targets (arrival?.map (·.label))
        (Statement.anyCaseTransfersControl (earlier ++ body :: cases)) body before =
          .ok (code, last) →
        first.checkCompatible last.tracker = .error problem →
          Fault ⟨arrival?, .either mark (earlier ++ body :: cases), state⟩ problem
  | macroCall {arrival? : Option Arrival} {mark : Mark} {target : String}
      {arguments : List Expression} {state : Progress} :
    Fault ⟨arrival?, .macroCall mark target arguments, state⟩ (.of (.macroInCode target))
  | binding {arrival? : Option Arrival} {mark : Mark} {bindings : List VariableDecl}
      {body : List Statement} {state : Progress} {decl : VariableDecl} :
    decl ∈ bindings → decl.value = none →
      Fault ⟨arrival?, .withDo mark bindings body, state⟩ (.of (.bindingWithoutValue decl.name))
  | retry {arrival? : Option Arrival} {mark : Mark} {value : Expression} {state : Progress} :
    state.tracker.label = none →
      Fault ⟨arrival?, .await mark value, state⟩ (.of .abortOutsideLabel)

end Visits

/-! ## Failing steps -/

namespace Noting

variable {α β : Type} {progress : Progress} {problem : Diagnostic}

theorem bind_error {first : Noting α} {next : α → Noting β} :
    (first >>= next) progress = .error problem ↔ first progress = .error problem ∨
      ∃ value between, first progress = .ok (value, between) ∧
        next value between = .error problem := by
  rw [bind_apply]
  cases hfirst : first progress with
  | error other => simp
  | ok pair =>
    obtain ⟨value, between⟩ := pair
    simp

theorem append_error {first second : Noting NotedCode} :
    (first ++ second) progress = .error problem ↔ first progress = .error problem ∨
      ∃ front between, first progress = .ok (front, between) ∧
        second between = .error problem := by
  rw [append_eq, bind_error]
  simp only [bind_error, pure_apply, reduceCtorEq, and_false, exists_false, or_false]

theorem attempt_error {result : Except Diagnostic α} :
    attempt result progress = .error problem ↔ result = .error problem := by
  cases result <;> simp [attempt]

/-- A branch fails in its statements, since a section can always be closed. -/
theorem branch_error {closeSection : Bool} {body : Noting NotedCode} :
    branch closeSection body progress = .error problem ↔ body progress = .error problem := by
  have hclose (between : Progress) :
      (if closeSection then close else pure [] : Noting NotedCode) between ≠ .error problem := by
    cases closeSection <;> simp [close, pure_apply]
  simp only [branch, bind_error, append_error, tracker, setTracker, pure_apply, hclose,
    reduceCtorEq, false_or, and_false, exists_false, or_false, Except.ok.injEq, Prod.mk.injEq]
  constructor
  · intro h
    rcases h with ⟨_, _, ⟨rfl, rfl⟩, h⟩
    exact h
  · intro h
    exact ⟨progress.tracker, progress, ⟨rfl, rfl⟩, h⟩

end Noting

theorem pairTexts_error {definitions : Definitions} {pairs : List AssignmentPair}
    {problem : Diagnostic} (h : pairTexts definitions pairs = .error problem) :
    ∃ expression ∈ pairs.flatMap fun pair => [pair.lhs, pair.rhs],
      expression.toGo definitions = .error problem := by
  induction pairs with
  | nil => cases h
  | cons pair rest ih =>
    rcases error_of_bind h with h | ⟨target, _, h⟩
    · exact ⟨pair.lhs, by simp, h⟩
    rcases error_of_bind h with h | ⟨value, _, h⟩
    · exact ⟨pair.rhs, by simp, h⟩
    rcases error_of_bind h with h | ⟨others, _, h⟩
    · obtain ⟨expression, hmem, herror⟩ := ih h
      exact ⟨expression, List.mem_append_right _ hmem, herror⟩
    · cases h

theorem listToGo_error {definitions : Definitions} {expressions : List Expression}
    {problem : Diagnostic} (h : Expression.listToGo definitions expressions = .error problem) :
    ∃ expression ∈ expressions, expression.toGo definitions = .error problem := by
  induction expressions with
  | nil => cases h
  | cons expression rest ih =>
    rcases error_of_bind h with h | ⟨text, _, h⟩
    · exact ⟨expression, List.mem_cons_self, h⟩
    rcases error_of_bind h with h | ⟨others, _, h⟩
    · obtain ⟨found, hmem, herror⟩ := ih h
      exact ⟨found, List.mem_cons_of_mem _ hmem, herror⟩
    · cases h

theorem noteBindings_error {definitions : Definitions} {label? : Option Label}
    {bindings : List VariableDecl} {progress : Progress} {problem : Diagnostic}
    (h : noteBindings definitions label? bindings progress = .error problem) :
    (∃ expression ∈ bindings.filterMap (·.value), expression.toGo definitions = .error problem) ∨
      ∃ decl ∈ bindings, decl.value = none ∧ problem = .of (.bindingWithoutValue decl.name) := by
  induction bindings with
  | nil => cases h
  | cons decl rest ih =>
    simp only [noteBindings] at h
    cases hvalue : decl.value with
    | none =>
      rw [hvalue] at h
      cases h
      exact .inr ⟨decl, List.mem_cons_self, hvalue, rfl⟩
    | some value =>
      rw [hvalue] at h
      simp only [bind_error, append_error, attempt_error, attempt_ok, remark, emitLine, emit,
        pure_apply, reduceCtorEq, false_or, Except.ok.injEq, Prod.mk.injEq] at h
      rcases h with h | ⟨text, _, ⟨_, rfl⟩, _, _, ⟨_, rfl⟩, _, _, ⟨_, rfl⟩, _, _, ⟨_, rfl⟩, _, _,
        ⟨_, rfl⟩, h⟩
      · exact .inl ⟨value, by simp [hvalue], h⟩
      rcases ih h with ⟨expression, hmem, herror⟩ | ⟨other, hmem, hother⟩
      · exact .inl ⟨expression, by simp [hvalue, hmem], herror⟩
      · exact .inr ⟨other, List.mem_cons_of_mem decl hmem, hother⟩

/-! ## Failing statements -/

section Statements

variable {definitions : Definitions} {targets : List String}

/-- More statements may follow. -/
theorem Visits.append {arrival? : Option Arrival} {statements : List Statement} {state : Progress}
    {visit : Visit} (h : Visits definitions targets arrival? statements state visit)
    (more : List Statement) :
    Visits definitions targets arrival? (statements ++ more) state visit := by
  induction h with
  | here => exact .here
  | later hstatement _ ih => exact .later hstatement ih
  | labeled hfront hlabel hstart hvisits _ => exact .labeled hfront hlabel hstart hvisits
  | loop htext hvisits _ => exact .loop htext hvisits
  | yes htext hvisits _ => exact .yes htext hvisits
  | no htext hyes hvisits _ => exact .no htext hyes hvisits
  | case hearlier hvisits _ => exact .case hearlier hvisits
  | inside hbindings hvisits _ => exact .inside hbindings hvisits

/-- One more case after some others. -/
private theorem noteCases_snoc_ok {label? : Option Label} {closeSection : Bool}
    {first last : Option Tracker} {earlier : List (List Statement)} {body : List Statement}
    {progress between after : Progress} {codes : List NotedCode} {code : NotedCode}
    (hearlier : noteCases definitions targets label? closeSection first earlier progress =
      .ok ((codes, last), between))
    (hbody : noteBranch definitions targets label? closeSection body between = .ok (code, after))
    (hcheck : ∀ tracker ∈ last, tracker.checkCompatible after.tracker = .ok ()) :
    ∃ codes, noteCases definitions targets label? closeSection first (earlier ++ [body]) progress =
      .ok ((codes, some (last.getD after.tracker)),
        { after with tracker := between.tracker }) := by
  induction earlier generalizing first progress codes with
  | nil =>
    obtain ⟨heq, rfl⟩ := pure_ok.1 hearlier
    injection heq with _ hlast
    subst hlast
    have hbranch := branch_ok.2 ⟨after, hbody, rfl, rfl⟩
    cases last with
    | none => exact ⟨[code], bind_ok.2 ⟨_, _, hbranch, rfl⟩⟩
    | some tracker =>
      refine ⟨[code], bind_ok.2 ⟨_, _, hbranch, bind_ok.2 ⟨(), _, ?_, rfl⟩⟩⟩
      exact attempt_ok.2 ⟨hcheck tracker rfl, rfl⟩
  | cons case rest ih =>
    obtain ⟨caseCode, caseLast, others, hcase, hchecks, hrest, rfl⟩ := noteCases_cons_ok hearlier
    obtain ⟨more, hmore⟩ := ih hrest
    have hbranch := branch_ok.2 ⟨caseLast, hcase, rfl, rfl⟩
    refine ⟨caseCode :: more, bind_ok.2 ⟨_, _, hbranch, ?_⟩⟩
    cases first with
    | none => exact bind_ok.2 ⟨_, _, hmore, rfl⟩
    | some tracker =>
      refine bind_ok.2 ⟨(), _, attempt_ok.2 ⟨hchecks tracker rfl, rfl⟩, ?_⟩
      exact bind_ok.2 ⟨_, _, hmore, rfl⟩

private theorem faulty_here {statement : Statement} {arrival? : Option Arrival} {state : Progress}
    {problem : Diagnostic} (h : Fault definitions targets ⟨arrival?, statement, state⟩ problem) :
    ∃ visit, Visits definitions targets arrival? [statement] state visit ∧
      Fault definitions targets visit problem :=
  ⟨_, .here, h⟩

mutual

/-- Where a statement fails, it or a statement in it is at fault. -/
theorem fault_of_statement_error (arrival? : Option Arrival) (statement : Statement)
    {state : Progress} {problem : Diagnostic}
    (h : noteStatement definitions targets (arrival?.map (·.label)) statement state =
      .error problem) :
    ∃ visit, Visits definitions targets arrival? [statement] state visit ∧
      Fault definitions targets visit problem := by
  cases statement with
  | labeled mark label body =>
    simp only [noteStatement, append_error, arrival_ok, declareLabel_ok] at h
    rcases h with h | ⟨front, reached, hfront, h⟩
    · split at h <;> cases h
    rcases h with h | ⟨_, reached, ⟨rfl, rfl⟩, h⟩
    · cases h
    rcases h with h | ⟨_, _, ⟨hlabel, rfl, rfl⟩, h⟩
    · have hlabels : reached.labels = state.labels := by
        split at hfront
        · rw [(close_ok.1 hfront).2]
        · rw [(pure_ok.1 hfront).2]
      simp only [declareLabel] at h
      split at h
      · rename_i hdeclared
        injection h with h
        rw [← h]
        exact faulty_here (.redeclared (hlabels ▸ hdeclared))
      · cases h
    rcases h with h | ⟨opening, started, hstart, h⟩
    · exact faulty_here (.opening hfront h)
    obtain ⟨visit, hvisits, hfault⟩ := fault_of_error (some ⟨label, _⟩) body h
    exact ⟨visit, .labeled hfront hlabel hstart hvisits, hfault⟩
  | whileDo mark condition body =>
    simp only [noteStatement, bind_error, append_error, attempt_error, attempt_ok, tracker_ok,
      remark_ok, emit_ok, append_ok] at h
    rcases h with h | ⟨text, _, ⟨htext, rfl⟩, h⟩
    · exact faulty_here (.text List.mem_cons_self h)
    rcases h with h | ⟨_, _, ⟨rfl, rfl⟩, h⟩
    · cases h
    rcases h with h | ⟨_, after, ⟨_, _, _, ⟨rfl, rfl⟩, ⟨_, _, _, ⟨rfl, rfl⟩,
      ⟨inner, between, back, hinner, hback, rfl⟩, rfl⟩, rfl⟩, h⟩
    · rcases h with h | ⟨_, _, ⟨rfl, rfl⟩, h⟩
      · cases h
      rcases h with h | ⟨_, _, ⟨rfl, rfl⟩, h⟩
      · cases h
      rcases h with h | ⟨inner, between, hinner, h⟩
      · obtain ⟨visit, hvisits, hfault⟩ := fault_of_error arrival? body h
        exact ⟨visit, .loop htext hvisits, hfault⟩
      · exact faulty_here (.closing hinner h)
    rcases h with h | ⟨_, _, ⟨rfl, rfl⟩, h⟩
    · cases h
    rcases h with h | ⟨_, _, _, h⟩
    · exact faulty_here (.loop ⟨_, _, _, _, _, _, _, _, rfl, htext, hinner, hback, h⟩)
    · cases h
  | ifElse mark condition yes no =>
    simp only [noteStatement, bind_error, attempt_error, attempt_ok, remark_ok, branch_error] at h
    rcases h with h | ⟨text, _, ⟨htext, rfl⟩, h⟩
    · exact faulty_here (.text List.mem_cons_self h)
    rcases h with h | ⟨_, _, ⟨rfl, rfl⟩, h⟩
    · cases h
    rcases h with h | ⟨⟨yesCode, _⟩, _, hyesBranch, h⟩
    · obtain ⟨visit, hvisits, hfault⟩ := fault_of_error arrival? yes h
      exact ⟨visit, .yes htext hvisits, hfault⟩
    obtain ⟨yesLast, hyes, rfl, rfl⟩ := branch_ok.1 hyesBranch
    rcases h with h | ⟨⟨noCode, _⟩, _, hnoBranch, h⟩
    · obtain ⟨visit, hvisits, hfault⟩ := fault_of_error arrival? no h
      exact ⟨visit, .no htext hyes hvisits, hfault⟩
    obtain ⟨noLast, hno, rfl, rfl⟩ := branch_ok.1 hnoBranch
    rcases h with h | ⟨_, _, _, h⟩
    · exact faulty_here (.branches hyes hno h)
    rcases h with h | ⟨_, _, _, h⟩ <;> cases h
  | either mark cases =>
    simp only [noteStatement, bind_error, remark_ok] at h
    rcases h with h | ⟨_, _, ⟨rfl, rfl⟩, h⟩
    · cases h
    rcases h with h | ⟨⟨codes, first⟩, last, hcases, h⟩
    · exact fault_of_cases_error arrival? mark [] cases rfl h
    · cases first <;> cases h
  | assign mark pairs =>
    simp only [noteStatement, bind_error, attempt_error] at h
    rcases h with h | ⟨texts, _, _, h⟩
    · obtain ⟨expression, hmem, herror⟩ := pairTexts_error h
      exact faulty_here (.text hmem herror)
    · rcases texts with _ | ⟨_, _ | _⟩ <;> cases h
  | leave mark => cases h
  | skip mark => cases h
  | call mark target arguments =>
    simp only [noteStatement, bind_error, attempt_error] at h
    rcases h with h | ⟨texts, _, _, h⟩
    · obtain ⟨expression, hmem, herror⟩ := listToGo_error h
      exact faulty_here (.text hmem herror)
    · cases h
  | macroCall mark target arguments =>
    cases h
    exact faulty_here .macroCall
  | withDo mark bindings body =>
    simp only [noteStatement, bind_error, append_error] at h
    rcases h with (h | ⟨front, bound, hfront, h⟩) | ⟨_, _, _, h⟩
    · rcases noteBindings_error h with ⟨expression, hmem, herror⟩ | ⟨decl, hmem, hvalue, rfl⟩
      · exact faulty_here (.text hmem herror)
      · exact faulty_here (.binding hmem hvalue)
    · obtain ⟨visit, hvisits, hfault⟩ := fault_of_error arrival? body h
      exact ⟨visit, .inside hfront hvisits, hfault⟩
    · cases h
  | print mark value =>
    simp only [noteStatement, bind_error, attempt_error] at h
    rcases h with h | ⟨text, _, _, h⟩
    · exact faulty_here (.text List.mem_cons_self h)
    · rcases h with h | ⟨_, _, _, h⟩ <;> cases h
  | assert mark value =>
    simp only [noteStatement, bind_error, attempt_error] at h
    rcases h with h | ⟨text, _, _, h⟩
    · exact faulty_here (.text List.mem_cons_self h)
    · cases h
  | await mark value =>
    simp only [noteStatement, bind_error, attempt_error, attempt_ok, remark_ok, branch_error] at h
    rcases h with h | ⟨text, _, ⟨_, rfl⟩, h⟩
    · exact faulty_here (.text List.mem_cons_self h)
    rcases h with h | ⟨_, state, ⟨rfl, rfl⟩, h⟩
    · cases h
    rcases h with h | ⟨_, _, _, h⟩
    · cases hlabel : state.tracker.label with
      | none =>
        simp only [abort, hlabel] at h
        injection h with h
        rw [← h]
        exact faulty_here (.retry hlabel)
      | some label => simp [abort, hlabel] at h
    · cases h
  | goto mark target =>
    simp only [noteStatement, append_error] at h
    rcases h with h | ⟨_, _, _, h⟩
    · cases h
    · split at h <;> cases h

/-- Where lowering fails, a statement that it has come to is at fault. -/
theorem fault_of_error (arrival? : Option Arrival) (statements : List Statement)
    {state : Progress} {problem : Diagnostic}
    (h : noteStatements definitions targets (arrival?.map (·.label)) statements state =
      .error problem) :
    ∃ visit, Visits definitions targets arrival? statements state visit ∧
      Fault definitions targets visit problem := by
  cases statements with
  | nil => cases h
  | cons statement rest =>
    rcases append_error.1 h with h | ⟨code, between, hstatement, h⟩
    · obtain ⟨visit, hvisits, hfault⟩ := fault_of_statement_error arrival? statement h
      exact ⟨visit, hvisits.append rest, hfault⟩
    · obtain ⟨visit, hvisits, hfault⟩ := fault_of_error arrival? rest h
      exact ⟨visit, .later hstatement hvisits, hfault⟩

/-- The same for the cases of a choice that come after some others. -/
theorem fault_of_cases_error (arrival? : Option Arrival) (mark : Mark)
    (earlier cases : List (List Statement)) {state between : Progress} {codes : List NotedCode}
    {first : Option Tracker} {problem : Diagnostic}
    (hearlier : noteCases definitions targets (arrival?.map (·.label))
      (Statement.anyCaseTransfersControl (earlier ++ cases)) none earlier state =
        .ok ((codes, first), between))
    (h : noteCases definitions targets (arrival?.map (·.label))
      (Statement.anyCaseTransfersControl (earlier ++ cases)) first cases between =
        .error problem) :
    ∃ visit, Visits definitions targets arrival? [.either mark (earlier ++ cases)] state visit ∧
      Fault definitions targets visit problem := by
  cases cases with
  | nil => cases h
  | cons body rest =>
    simp only [noteCases, bind_error, branch_error] at h
    rcases h with h | ⟨⟨code, _⟩, _, hbranch, h⟩
    · obtain ⟨visit, hvisits, hfault⟩ := fault_of_error arrival? body h
      exact ⟨visit, .case hearlier hvisits, hfault⟩
    obtain ⟨last, hbody, rfl, rfl⟩ := branch_ok.1 hbranch
    have hnext (hcheck : ∀ tracker ∈ first, tracker.checkCompatible last.tracker = .ok ())
        (h : noteCases definitions targets (arrival?.map (·.label))
          (Statement.anyCaseTransfersControl (earlier ++ body :: rest))
          (some (first.getD last.tracker)) rest { last with tracker := between.tracker } =
            .error problem) :
        ∃ visit, Visits definitions targets arrival? [.either mark (earlier ++ body :: rest)] state
          visit ∧ Fault definitions targets visit problem := by
      obtain ⟨more, hmore⟩ := noteCases_snoc_ok hearlier hbody hcheck
      rw [List.append_cons] at hmore h ⊢
      exact fault_of_cases_error arrival? mark (earlier ++ [body]) rest hmore h
    cases first with
    | none =>
      simp only [bind_error] at h
      rcases h with h | ⟨_, _, _, h⟩
      · exact hnext (by simp) h
      · cases h
    | some tracker =>
      simp only [bind_error, attempt_error, attempt_ok] at h
      rcases h with h | ⟨_, _, ⟨hcheck, rfl⟩, h⟩
      · exact faulty_here (.cases hearlier hbody h)
      rcases h with h | ⟨_, _, _, h⟩
      · refine hnext ?_ h
        intro other hother
        cases hother
        exact hcheck
      · cases h

end

end Statements

end Go

end PlusCalGo
