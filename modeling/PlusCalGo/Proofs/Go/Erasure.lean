import PlusCalGo.Proofs.Go.Agreement

/-!
# Remarks change nothing

Both lowerings of a statement agree, and so do those of whole bodies and functions.
-/

namespace PlusCalGo.Go

open Noting

/-! ## Assignments and bindings -/

private theorem reads_pairs (definitions : Definitions) (pairs : List AssignmentPair) :
    Reads (attempt (pairTexts definitions pairs)) (Lower.pairs definitions pairs)
      (List.map Prod.snd) := by
  induction pairs with
  | nil =>
    intro state
    change EStateM.Result.ok [] state = _
    simp only [Lowering.write_nil, List.map_nil]
  | cons pair rest ih =>
    intro state
    have ih := ih state
    simp only [attempt, pairTexts, Lower.pairs, Lower.bind_apply, Lower.expression,
      Emit.liftExcept] at ih ⊢
    cases pair.lhs.toGo definitions with
    | error problem => exact ⟨state, rfl⟩
    | ok target =>
      cases pair.rhs.toGo definitions with
      | error problem => exact ⟨state, rfl⟩
      | ok value =>
        cases htexts : pairTexts definitions rest with
        | error problem =>
          rw [htexts] at ih
          obtain ⟨after, hafter⟩ := ih
          exact ⟨after, by simp [pure, EStateM.pure, hafter]⟩
        | ok texts =>
          rw [htexts] at ih
          simp [pure, EStateM.pure, Except.pure, bind, Except.bind, ih]

theorem erase_notedSimultaneous (held : Option LockGroup) (label? : Option Label) (first : Nat)
    (pairs : List (AssignmentPair × String × String)) :
    NotedCode.erase [notedSimultaneous (fun expressions =>
      .leaf (.remark ⟨held, label?, .evaluates expressions⟩)) first pairs] =
      [Lower.simultaneous first (pairs.map Prod.snd)] := by
  simp only [notedSimultaneous, Lower.simultaneous, NotedCode.erase_block, NotedCode.erase_append,
    NotedCode.erase_flatMap, NotedCode.erase_remark, NotedCode.erase_line, NotedCode.erase_nil]
  rw [List.zipIdx_map]
  simp [List.map_eq_flatMap, List.flatMap_assoc]

private theorem reads_takeTemporaries (count : Nat) :
    Reads (takeTemporaries count) (do
      let next := (← get).nextTemporary
      modify fun state : Lowering => { state with nextTemporary := next + count }
      pure next) id := by
  intro state
  simp [takeTemporaries, Lowering.progress, bind, EStateM.bind, get, getThe, MonadStateOf.get,
    EStateM.get, modify, modifyGet, MonadStateOf.modifyGet, EStateM.modifyGet, pure, EStateM.pure,
    Lowering.write]

/-- Code that is made with the open group at hand. -/
private theorem writes_emit_held {make : Option LockGroup → Code Note} {added : SectionCode}
    (h : ∀ held, NotedCode.erase [make held] = [added]) :
    Writes (do
      let held := (← tracker).openGroup
      emit (make held)) (Lower.add added) := by
  intro state
  rw [Noting.bind_apply]
  exact writes_add (h state.progress.tracker.openGroup) state

private theorem writes_simultaneous (label? : Option Label)
    (pairs : List (AssignmentPair × String × String)) :
    Writes (do
      let first ← takeTemporaries pairs.length
      let held := (← tracker).openGroup
      emit (notedSimultaneous (fun expressions =>
        .leaf (.remark ⟨held, label?, .evaluates expressions⟩)) first pairs)) (do
      let next := (← get).nextTemporary
      modify fun state : Lowering =>
        { state with nextTemporary := next + (pairs.map Prod.snd).length }
      Lower.add (Lower.simultaneous next (pairs.map Prod.snd))) := by
  rw [List.length_map]
  have hsplit : (do
      let next := (← get).nextTemporary
      modify fun state : Lowering => { state with nextTemporary := next + pairs.length }
      Lower.add (Lower.simultaneous next (pairs.map Prod.snd))) = (do
      let next := (← get).nextTemporary
      modify fun state : Lowering => { state with nextTemporary := next + pairs.length }
      pure next) >>= fun next => Lower.add (Lower.simultaneous next (pairs.map Prod.snd)) := by
    simp only [bind_assoc, pure_bind]
  rw [hsplit]
  apply Reads.bind (reads_takeTemporaries pairs.length)
  intro first
  exact writes_emit_held fun held => erase_notedSimultaneous held label? first pairs

theorem writes_assign (definitions : Definitions) (label? : Option Label)
    (pairs : List AssignmentPair) :
    Writes (do noteAssign label? (← attempt (pairTexts definitions pairs))) (do
      let lowered ← Lower.pairs definitions pairs
      match lowered with
      | [(target, value)] => Lower.addLine (target ++ " = " ++ value)
      | _ => do
        let next := (← get).nextTemporary
        modify fun state => { state with nextTemporary := next + lowered.length }
        Lower.add (Lower.simultaneous next lowered)) := by
  apply (reads_pairs definitions pairs).bind
  intro texts
  rcases texts with _ | ⟨⟨pair, target, value⟩, _ | ⟨second, rest⟩⟩
  · exact writes_simultaneous label? []
  · exact (writes_emitLine _).after_remark
  · exact writes_simultaneous label? _

theorem writes_bindings (definitions : Definitions) (label? : Option Label)
    (bindings : List VariableDecl) :
    Writes (noteBindings definitions label? bindings) (Lower.bindings definitions bindings) := by
  induction bindings with
  | nil => exact writes_pure
  | cons decl rest ih =>
    simp only [noteBindings, Lower.bindings]
    cases decl.value with
    | none => exact fun state => ⟨state, rfl⟩
    | some value =>
      apply (reads_attempt (value.toGo definitions)).bind
      intro text
      exact ((writes_emitLine _).append ((writes_emitLine _).append ih).after_remark).after_remark

/-! ## Statements -/

private theorem writes_throw (problem : Diagnostic) :
    Writes (throw problem) (throw problem) := fun state => ⟨state, rfl⟩

private theorem writes_arrival (label : Label) {noting : Noting NotedCode} {lower : Lower Unit}
    (h : Writes noting lower) : Writes (arrival label ++ noting) lower := by
  intro state
  have hremark : Writes (remark (some label)
      (.arrives label !(state.emission.tracker.continues label.uid)) ++ noting) lower :=
    h.after_remark
  exact hremark state

/-- Without code in between, the loop and the check after it may change places. -/
private theorem writes_check {code : NotedCode} {added : SectionCode} (entry : Tracker)
    (h : code.erase = [added]) :
    Writes (do
      let after ← tracker
      attempt (after.checkCompatible entry)
      pure code) (do
      Lower.add added
      Emit.liftExcept ((← Lower.tracker).checkCompatible entry)) := by
  intro state
  have hadd : Lower.add added state = .ok () (state.write code state.progress) :=
    writes_add h state
  have htracker : Lower.tracker (state.write code state.progress) =
      .ok state.emission.tracker (state.write code state.progress) := rfl
  have hprogress : state.progress.tracker = state.emission.tracker := rfl
  simp only [Noting.bind_apply, tracker, Lower.bind_apply, hadd, htracker, hprogress]
  cases state.emission.tracker.checkCompatible entry with
  | error problem => exact ⟨state.write code state.progress, rfl⟩
  | ok value => rfl

private theorem writes_loop {noting : Noting NotedCode} {lower : Lower Unit} (entry : Tracker)
    (h : Writes noting lower) :
    Writes (do
      let inner ← noting
      let after ← tracker
      attempt (after.checkCompatible entry)
      pure [.loop inner]) (do
      Lower.openBlock
      lower
      let body ← Lower.closeBlock
      Lower.add (.loop body)
      Emit.liftExcept ((← Lower.tracker).checkCompatible entry)) := by
  have hassoc (finish : List SectionCode → Lower Unit) :
      (do
        Lower.openBlock
        lower
        let body ← Lower.closeBlock
        finish body) = (do Lower.openBlock; lower; Lower.closeBlock) >>= finish := by
    simp only [bind_assoc]
  rw [hassoc]
  exact (reads_block h).bind fun inner => writes_check entry rfl

private theorem writes_block {noting : Noting NotedCode} {lower : Lower Unit}
    (h : Writes noting lower) :
    Writes (do pure [.block (← noting)]) (do
      Lower.openBlock
      lower
      Lower.add (.block (← Lower.closeBlock))) := by
  have hassoc (finish : List SectionCode → Lower Unit) :
      (do
        Lower.openBlock
        lower
        let body ← Lower.closeBlock
        finish body) = (do Lower.openBlock; lower; Lower.closeBlock) >>= finish := by
    simp only [bind_assoc]
  rw [hassoc]
  exact (reads_block h).bind fun inner => writes_add rfl

mutual

theorem writes_statement (definitions : Definitions) (targets : List String)
    (label? : Option Label) (statement : Statement) :
    Writes (noteStatement definitions targets label? statement)
      (lowerStatement definitions targets statement) := by
  cases statement with
  | labeled mark label body =>
    have hbody := writes_statements definitions targets (some label) body
    have hlabel := writes_arrival label ((writes_declareLabel label.name).append
      ((writes_start label.uid label.name).append hbody))
    rw [noteStatement, lowerStatement]
    by_cases htarget : label.name ∈ targets
    · simp only [if_pos htarget]
      exact writes_close.append hlabel
    · simp only [if_neg htarget]
      exact writes_pure.append hlabel
  | whileDo mark condition body =>
    have hbody := writes_statements definitions targets label? body
    rw [noteStatement, lowerStatement]
    apply (reads_attempt (condition.toGo definitions)).bind
    intro text
    apply reads_tracker.bind
    intro entry
    have hcheck : Writes (emit (.branch ("!" ++ text) [.line "break"] []))
        (Lower.add (.branch ("!" ++ text) [.line "break"] [])) := writes_add rfl
    have hinner : Writes (remark label? (.evaluates [condition]) ++
        (emit (.branch ("!" ++ text) [.line "break"] []) ++
          (noteStatements definitions targets label? body ++ endLoop entry.label))) _ :=
      (hcheck.append (hbody.append (writes_endLoop entry.label))).after_remark
    have hloop := writes_loop entry hinner
    simp only [bind_assoc] at hloop
    exact hloop
  | ifElse mark condition yes no =>
    have hyes := writes_statements definitions targets label? yes
    have hno := writes_statements definitions targets label? no
    rw [noteStatement, lowerStatement]
    apply (reads_attempt (condition.toGo definitions)).bind
    intro text
    apply Agrees.after_remark
    intro note hnote
    refine (reads_branch hyes).bind fun (yesCode, yesTracker) => ?_
    refine (reads_branch hno).bind fun (noCode, noTracker) => ?_
    refine (reads_attempt (yesTracker.checkCompatible noTracker)).bind fun _ => ?_
    refine (reads_setTracker yesTracker).bind fun _ => ?_
    exact writes_add (by simp [hnote])
  | either mark cases =>
    have hcases := reads_cases definitions targets label?
      (Statement.anyCaseTransfersControl cases) none cases
    rw [noteStatement, lowerStatement]
    apply Agrees.after_remark
    intro note hnote
    refine hcases.bind fun (codes, first) => ?_
    have hswitch : Writes (do
        setImports fun imports => { imports with rand := true }
        pure (note ++ [.switch ("rand.Intn(" ++ Nat.repr cases.length ++ ")") codes])) (do
        modify fun state : Lowering => { state with imports := { state.imports with rand := true } }
        Lower.add (.switch ("rand.Intn(" ++ Nat.repr cases.length ++ ")")
          (codes.map NotedCode.erase))) :=
      (reads_setImports fun imports => { imports with rand := true }).bind fun _ =>
        writes_add (by simp [hnote])
    cases first with
    | none => exact hswitch
    | some first => exact (reads_setTracker first).bind fun _ => hswitch
  | assign mark pairs => exact writes_assign definitions label? pairs
  | leave mark => exact writes_close.append (writes_emitLine "return")
  | skip mark => exact writes_pure
  | call mark target arguments =>
    rw [noteStatement, lowerStatement]
    apply (reads_attempt (Expression.listToGo definitions arguments)).bind
    intro texts
    exact writes_close.append (writes_emitLine _).after_remark
  | macroCall mark target arguments => exact writes_throw _
  | withDo mark bindings body =>
    rw [noteStatement, lowerStatement]
    have hblock := writes_block ((writes_bindings definitions label? bindings).append
      (writes_statements definitions targets label? body))
    simp only [bind_assoc] at hblock
    exact hblock
  | print mark value =>
    rw [noteStatement, lowerStatement]
    apply (reads_attempt (value.toGo definitions)).bind
    intro text
    refine (reads_setImports fun imports => { imports with fmt := true }).bind fun _ => ?_
    exact (writes_emitLine _).after_remark
  | assert mark value =>
    rw [noteStatement, lowerStatement]
    apply (reads_attempt (value.toGo definitions)).bind
    intro text
    exact (writes_add rfl).after_remark
  | await mark value =>
    rw [noteStatement, lowerStatement]
    apply (reads_attempt (value.toGo definitions)).bind
    intro text
    apply Agrees.after_remark
    intro note hnote
    refine (reads_branch (writes_abort label?)).bind fun (retry, after) => ?_
    exact writes_add (by simp [hnote])
  | goto mark target =>
    rw [noteStatement, lowerStatement]
    by_cases hdone : target = Label.done
    · simp only [if_pos hdone]
      exact writes_close.append (writes_emitLine "return")
    · simp only [if_neg hdone]
      exact writes_close.append (writes_goTo target)

theorem writes_statements (definitions : Definitions) (targets : List String)
    (label? : Option Label) (statements : List Statement) :
    Writes (noteStatements definitions targets label? statements)
      (lowerStatements definitions targets statements) := by
  cases statements with
  | nil => exact writes_pure
  | cons statement rest =>
    exact (writes_statement definitions targets label? statement).append
      (writes_statements definitions targets label? rest)

theorem reads_cases (definitions : Definitions) (targets : List String) (label? : Option Label)
    (closeSection : Bool) (first : Option Tracker) (cases : List (List Statement)) :
    Reads (noteCases definitions targets label? closeSection first cases)
      (lowerCases definitions targets closeSection first cases)
      (fun (codes, first) => (codes.map NotedCode.erase, first)) := by
  cases cases with
  | nil => exact reads_pure _ _
  | cons body rest =>
    rw [noteCases, lowerCases]
    refine (reads_branch (writes_statements definitions targets label? body)).bind
      fun (code, tracker) => ?_
    cases first with
    | none =>
      refine (reads_cases definitions targets label? closeSection (some tracker) rest).bind
        fun (codes, first) => ?_
      exact reads_pure _ _
    | some first =>
      refine (reads_attempt (first.checkCompatible tracker)).bind fun _ => ?_
      refine (reads_cases definitions targets label? closeSection (some first) rest).bind
        fun (codes, first) => ?_
      exact reads_pure _ _

end

/-! ## Functions -/

private theorem writes_declare (name : String) (declaration : Declaration) :
    Writes (noteDeclare name declaration) (Lower.declare name declaration) :=
  (writes_emitLine _).append (writes_emitLine _)

private theorem writes_copies (copies : List VariableDecl) :
    Writes (noteCopies copies) (Lower.declareCopies copies) := by
  induction copies with
  | nil => exact writes_pure
  | cons decl rest ih => exact (writes_declare _ _).append ih

private theorem writes_locals (definitions : Definitions) (locals : List VariableDecl) :
    Writes (noteLocals definitions locals) (Lower.declareAll definitions locals) := by
  induction locals with
  | nil => exact writes_pure
  | cons decl rest ih =>
    apply (reads_attempt (declarationOf definitions decl)).bind
    intro declaration
    exact (writes_declare decl.name declaration).append ih

theorem writes_function (definitions : Definitions) (copies locals : List VariableDecl)
    (body : List Statement) :
    Writes (noteFunction definitions copies locals body)
      (lowerFunction definitions copies locals body) :=
  (writes_copies copies).append ((writes_locals definitions locals).append
    ((writes_statements definitions _ none body).append writes_close))

private theorem least?_eq_none_iff {names : List String} :
    Builder.least? names = none ↔ names = [] := by
  cases names with
  | nil => simp [Builder.least?]
  | cons name rest =>
    simp only [Builder.least?]
    split <;> simp

/-- A body can be finished if no block is open and each jump has a label. -/
theorem Builder.finish_ok_iff {κ : Type} {builder : Builder κ} {body : FunctionBody κ} :
    builder.finish = .ok body ↔
      builder.enclosing = [] ∧ (∀ name ∈ builder.targets, name ∈ builder.labels) ∧
        body = ⟨builder.current, builder.targets⟩ := by
  have hmissing : builder.missingTarget? = none ↔
      ∀ name ∈ builder.targets, name ∈ builder.labels := by
    rw [missingTarget?, least?_eq_none_iff]
    simp
  rw [← hmissing, finish]
  split
  · rename_i hopen
    simp [hopen]
  · rename_i hclosed
    cases builder.missingTarget? with
    | some name => simp
    | none => simp [not_not.1 hclosed, eq_comm]

/-- A function body that is made can be made with remarks, and has the same targets. -/
theorem FunctionContext.made_of_body {context : FunctionContext} {imports after : Imports}
    {owner : Uid} {locals : List VariableDecl} {body : List Statement}
    {result : FunctionBody SectionCall}
    (h : context.body imports owner locals body = .ok (result, after)) :
    ∃ code progress, context.noted imports owner locals body = .ok (code, progress) ∧
      result = ⟨code.erase, progress.targets⟩ ∧
      ∀ name ∈ progress.targets, name ∈ progress.labels := by
  simp only [FunctionContext.body] at h
  split at h
  · simp at h
  · rename_i state hlower
    obtain ⟨code, progress, hnoted, hstate⟩ :=
      (writes_function context.definitions context.copies locals body).ok hlower
    cases hfinish : state.emission.builder.finish with
    | error problem => simp [hfinish, bind, Except.bind] at h
    | ok finished =>
      obtain ⟨_, htargets, hbody⟩ := Builder.finish_ok_iff.1 hfinish
      have hresult : finished = result := by
        simp only [hfinish, bind, Except.bind, pure, Except.pure, Except.ok.injEq,
          Prod.mk.injEq] at h
        exact h.1
      subst hstate hresult
      exact ⟨code, progress, hnoted, hbody, htargets⟩

theorem FunctionContext.noted_of_body {context : FunctionContext} {imports after : Imports}
    {owner : Uid} {locals : List VariableDecl} {body : List Statement}
    {result : FunctionBody SectionCall}
    (h : context.body imports owner locals body = .ok (result, after)) :
    ∃ code progress, context.noted imports owner locals body = .ok (code, progress) ∧
      result.code = code.erase ∧ ∀ name ∈ progress.targets, name ∈ progress.labels := by
  obtain ⟨code, progress, hnoted, rfl, htargets⟩ := made_of_body h
  exact ⟨code, progress, hnoted, rfl, htargets⟩

end PlusCalGo.Go
