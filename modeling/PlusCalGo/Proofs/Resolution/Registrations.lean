import PlusCalGo.Proofs.Resolution.Linking

/-!
# Registrations

Resolution registers each declaration under its own uid. If no two nodes share a uid, no declaration
is registered a second time, so the check of the uids is the only place where shared uids are found.
-/

namespace PlusCalGo

/-- Two nodes have the same uid. -/
def Problem.sharesUid : Problem → Bool
  | duplicateUid _ | registeredTwice .. => true
  | _ => false

/-- What goes wrong, if anything does, is something else than a shared uid. -/
def Unshared {α : Type} (result : Except Diagnostic α) : Prop :=
  ∀ diagnostic, result = .error diagnostic → diagnostic.problem.sharesUid = false

namespace Unshared

variable {α β : Type}

theorem ok (value : α) : Unshared (.ok value : Except Diagnostic α) := nofun

theorem error {diagnostic : Diagnostic} (h : diagnostic.problem.sharesUid = false) :
    Unshared (.error diagnostic : Except Diagnostic α) := by
  intro other hother
  injection hother with hother
  rw [← hother]
  exact h

theorem bind {first : Except Diagnostic α} {next : α → Except Diagnostic β}
    (hfirst : Unshared first) (hnext : ∀ value, Unshared (next value)) :
    Unshared (first >>= next) := by
  intro diagnostic h
  rcases error_of_bind h with h | ⟨value, _, h⟩
  · exact hfirst diagnostic h
  · exact hnext value diagnostic h

end Unshared

/-! ## Rules for labels -/

namespace Statement

mutual

private theorem unshared_labelNames (statement : Statement) (seen : List String) :
    Unshared (labelNames seen statement) := by
  cases statement with
  | labeled mark label body =>
    rw [labelNames]
    split
    · exact .error rfl
    split
    · exact .error rfl
    · exact unshared_listLabelNames body _
  | whileDo mark condition body => exact unshared_listLabelNames body seen
  | withDo mark bindings body => exact unshared_listLabelNames body seen
  | ifElse mark condition yes no =>
    exact (unshared_listLabelNames yes seen).bind (unshared_listLabelNames no)
  | either mark cases => exact unshared_casesLabelNames cases seen
  | _ => exact .ok seen

private theorem unshared_listLabelNames (statements : List Statement) (seen : List String) :
    Unshared (listLabelNames seen statements) := by
  cases statements with
  | nil => exact .ok seen
  | cons statement rest =>
    exact (unshared_labelNames statement seen).bind (unshared_listLabelNames rest)

private theorem unshared_casesLabelNames (cases : List (List Statement)) (seen : List String) :
    Unshared (casesLabelNames seen cases) := by
  cases cases with
  | nil => exact .ok seen
  | cons statements rest =>
    exact (unshared_listLabelNames statements seen).bind (unshared_casesLabelNames rest)

end

mutual

private theorem unshared_checkJumps (labels : List String) (statement : Statement) :
    Unshared (checkJumps labels statement) := by
  cases statement with
  | goto mark target =>
    rw [checkJumps]
    split
    · exact .error rfl
    · exact .ok ()
  | labeled mark label body => exact unshared_listCheckJumps labels body
  | whileDo mark condition body => exact unshared_listCheckJumps labels body
  | withDo mark bindings body => exact unshared_listCheckJumps labels body
  | ifElse mark condition yes no =>
    exact (unshared_listCheckJumps labels yes).bind fun _ => unshared_listCheckJumps labels no
  | either mark cases => exact unshared_casesCheckJumps labels cases
  | _ => exact .ok ()

private theorem unshared_listCheckJumps (labels : List String) (statements : List Statement) :
    Unshared (listCheckJumps labels statements) := by
  cases statements with
  | nil => exact .ok ()
  | cons statement rest =>
    exact (unshared_checkJumps labels statement).bind fun _ => unshared_listCheckJumps labels rest

private theorem unshared_casesCheckJumps (labels : List String) (cases : List (List Statement)) :
    Unshared (casesCheckJumps labels cases) := by
  cases cases with
  | nil => exact .ok ()
  | cons statements rest =>
    exact (unshared_listCheckJumps labels statements).bind fun _ =>
      unshared_casesCheckJumps labels rest

end

private theorem unshared_checkAdjacent (statements : List Statement) :
    Unshared (checkAdjacent statements) := by
  induction statements with
  | nil => exact .ok ()
  | cons previous rest ih =>
    cases rest with
    | nil => exact .ok ()
    | cons next rest =>
      rw [checkAdjacent]
      split
      · exact .error rfl
      · exact ih

mutual

private theorem unshared_checkPlacement (statement : Statement) :
    Unshared (checkPlacement statement) := by
  cases statement with
  | labeled mark label body =>
    exact (unshared_checkAdjacent body).bind fun _ => unshared_listCheckPlacement body
  | whileDo mark condition body =>
    exact (unshared_checkAdjacent body).bind fun _ => unshared_listCheckPlacement body
  | withDo mark bindings body =>
    exact (unshared_checkAdjacent body).bind fun _ => unshared_listCheckPlacement body
  | ifElse mark condition yes no =>
    exact (unshared_checkAdjacent yes).bind fun _ => (unshared_listCheckPlacement yes).bind fun _ =>
      (unshared_checkAdjacent no).bind fun _ => unshared_listCheckPlacement no
  | either mark cases => exact unshared_casesCheckPlacement cases
  | _ => exact .ok ()

private theorem unshared_listCheckPlacement (statements : List Statement) :
    Unshared (listCheckPlacement statements) := by
  cases statements with
  | nil => exact .ok ()
  | cons statement rest =>
    exact (unshared_checkPlacement statement).bind fun _ => unshared_listCheckPlacement rest

private theorem unshared_casesCheckPlacement (cases : List (List Statement)) :
    Unshared (casesCheckPlacement cases) := by
  cases cases with
  | nil => exact .ok ()
  | cons statements rest =>
    exact (unshared_checkAdjacent statements).bind fun _ =>
      (unshared_listCheckPlacement statements).bind fun _ => unshared_casesCheckPlacement rest

end

theorem unshared_checkLabels (body : List Statement) : Unshared (checkLabels body) :=
  (unshared_listLabelNames body []).bind fun labels =>
    (unshared_listCheckJumps labels body).bind fun _ =>
      (unshared_checkAdjacent body).bind fun _ => unshared_listCheckPlacement body

end Statement

/-! ## Registering -/

/-- Where the uids differ from each other and from those registered before, no shared uid is found,
and what is registered afterwards has one of them or was there before. -/
def Registers {α : Type} (definitionsOf : α → Definitions) (before : Definitions)
    (uids : List Uid) (result : Except Diagnostic α) : Prop :=
  uids.Nodup → (∀ definition ∈ before.toList, definition.uid ∉ uids) → Unshared result ∧
    ∀ value, result = .ok value → ∀ definition ∈ (definitionsOf value).toList,
      definition ∈ before.toList ∨ definition.uid ∈ uids

namespace Registers

variable {α β : Type} {definitionsOf : α → Definitions} {lastOf : β → Definitions}
  {before : Definitions} {uids more : List Uid} {result : Except Diagnostic α}

theorem mono (h : Registers definitionsOf before uids result) (hmore : uids.Sublist more) :
    Registers definitionsOf before more result := by
  intro hnodup hfresh
  obtain ⟨hunshared, hadded⟩ := h (hnodup.sublist hmore) fun definition hmem huid =>
    hfresh definition hmem (hmore.subset huid)
  refine ⟨hunshared, fun value hvalue definition hmem => ?_⟩
  exact (hadded value hvalue definition hmem).imp_right fun huid => hmore.subset huid

theorem bind {next : α → Except Diagnostic β} (h : Registers definitionsOf before uids result)
    (hnext : ∀ value, Registers lastOf (definitionsOf value) more (next value)) :
    Registers lastOf before (uids ++ more) (result >>= next) := by
  intro hnodup hfresh
  obtain ⟨huids, hmore, hapart⟩ := List.nodup_append.1 hnodup
  obtain ⟨hunshared, hadded⟩ := h huids fun definition hmem huid =>
    hfresh definition hmem (List.mem_append_left _ huid)
  -- What the first part has registered has other uids than the second part is to register.
  have hfreshNext (value : α) (hvalue : result = .ok value) :
      ∀ definition ∈ (definitionsOf value).toList, definition.uid ∉ more := by
    intro definition hmem huid
    rcases hadded value hvalue definition hmem with hold | hnew
    · exact hfresh definition hold (List.mem_append_right _ huid)
    · exact hapart _ hnew _ huid rfl
  constructor
  · intro diagnostic herror
    rcases error_of_bind herror with herror | ⟨value, hvalue, herror⟩
    · exact hunshared diagnostic herror
    · exact (hnext value hmore (hfreshNext value hvalue)).1 diagnostic herror
  · intro last hlast definition hmem
    obtain ⟨value, hvalue, hlast⟩ := ok_of_bind hlast
    have haddedNext := (hnext value hmore (hfreshNext value hvalue)).2
    rcases haddedNext last hlast definition hmem with hold | hnew
    · exact (hadded value hvalue definition hold).imp_right (List.mem_append_left _)
    · exact .inr (List.mem_append_right _ hnew)

theorem ok {value : α} (h : (definitionsOf value).toList = before.toList) :
    Registers definitionsOf before [] (.ok value) := by
  intro _ _
  refine ⟨.ok value, ?_⟩
  rintro _ ⟨⟩ definition hmem
  rw [h] at hmem
  exact .inl hmem

theorem error {diagnostic : Diagnostic} (h : diagnostic.problem.sharesUid = false) :
    Registers definitionsOf before uids (.error diagnostic : Except Diagnostic α) :=
  fun _ _ => ⟨.error h, nofun⟩

/-- A check registers nothing. -/
theorem check {checked : Except Diagnostic Unit} (h : Unshared checked) :
    Registers (fun _ => before) before [] checked :=
  fun _ _ => ⟨h, fun _ _ _ hmem => .inl hmem⟩

end Registers

/-! ## Expressions -/

section Expressions

variable {scopes : Scopes} {location : TextLocation}

mutual

theorem Expression.registers (expression : Expression) (before : Definitions) :
    Registers id before [] (expression.resolve scopes location before) := by
  cases expression with
  | identifier uid name =>
    rw [Expression.resolve]
    split
    · exact .ok rfl
    · exact .error rfl
  | number uid value => exact .ok rfl
  | bool uid value => exact .ok rfl
  | string uid value => exact .ok rfl
  | index uid function params =>
    exact (function.registers before).bind fun between => Expression.listRegisters params between
  | binary uid op lhs rhs => exact (lhs.registers before).bind fun between => rhs.registers between
  | unary uid op operand => exact operand.registers before
  | tuple uid elements => exact Expression.listRegisters elements before
  | ifElse uid condition yes no =>
    exact (condition.registers before).bind fun between =>
      (yes.registers between).bind fun between => no.registers between
  | apply uid name args => exact Expression.listRegisters args before

theorem Expression.listRegisters (expressions : List Expression) (before : Definitions) :
    Registers id before [] (Expression.listResolve scopes location expressions before) := by
  cases expressions with
  | nil => exact .ok rfl
  | cons expression rest =>
    exact (expression.registers before).bind fun between => Expression.listRegisters rest between

end

theorem AssignmentPair.registers (pairs : List AssignmentPair) (before : Definitions) :
    Registers id before [] (AssignmentPair.resolveList scopes location pairs before) := by
  induction pairs generalizing before with
  | nil => exact .ok rfl
  | cons pair rest ih =>
    rw [AssignmentPair.resolveList]
    split
    · exact .error rfl
    · exact (pair.lhs.registers before).bind fun between =>
        (pair.rhs.registers between).bind ih

end Expressions

/-! ## Declarations -/

/-- A definition whose uid is new is not registered twice. -/
theorem Definitions.registers_add (before : Definitions) (definition : Definition) :
    Registers id before [definition.uid] (before.add definition) := by
  intro _ hfresh
  have hnone : before.find? definition.uid = none := by
    apply List.find?_eq_none.2
    intro other hmem
    simpa using hfresh other hmem
  rw [add, hnone]
  refine ⟨.ok _, ?_⟩
  rintro _ ⟨⟩ other hmem
  rcases List.mem_append.1 hmem with hold | hlast
  · exact .inl hold
  · rw [List.mem_singleton.1 hlast]
    exact .inr List.mem_cons_self

theorem Scopes.registers_declare (scopes : Scopes) (before : Definitions)
    (definition : Definition) :
    Registers Prod.snd before [definition.uid] (scopes.declare before definition) := by
  rw [declare]
  split
  · exact .error rfl
  · exact (before.registers_add definition).bind fun _ => .ok rfl

namespace Resolved

variable (state : Resolved)

theorem registers_declare (definition : Definition) :
    Registers definitions state.definitions [definition.uid] (state.declare definition) :=
  (state.scopes.registers_declare state.definitions definition).bind fun _ => .ok rfl

theorem registers_resolve (value : Expression) (location : TextLocation) :
    Registers definitions state.definitions [] (state.resolve value location) :=
  (value.registers state.definitions).bind fun _ => .ok rfl

theorem registers_declareVariable (kind : ResourceKind → DefinitionKind) (decl : VariableDecl) :
    Registers definitions state.definitions decl.uids (state.declareVariable kind decl) := by
  have huid : [decl.uid].Sublist decl.uids := List.Sublist.cons_cons _ (List.nil_sublist _)
  have hdeclare (valued : Resolved) :=
    valued.registers_declare ⟨decl.uid, decl.name, kind decl.resource, decl.location⟩
  apply Registers.mono _ huid
  rw [declareVariable]
  cases decl.value with
  | none => exact hdeclare state
  | some value => exact (state.registers_resolve value _).bind hdeclare

theorem registers_declareVariables (kind : ResourceKind → DefinitionKind)
    (decls : List VariableDecl) :
    Registers definitions state.definitions (decls.flatMap VariableDecl.uids)
      (state.declareVariables kind decls) := by
  induction decls generalizing state with
  | nil => exact .ok rfl
  | cons decl rest ih => exact (state.registers_declareVariable kind decl).bind ih

theorem registers_declareBindings (bindings : List VariableDecl) :
    Registers definitions state.definitions (bindings.flatMap VariableDecl.uids)
      (state.declareBindings bindings) := by
  induction bindings generalizing state with
  | nil => exact .ok rfl
  | cons decl rest ih =>
    rw [declareBindings]
    split
    · exact .error rfl
    · exact (state.registers_declareVariable _ decl).bind ih

theorem registers_declareConstants (decls : List ConstantDecl) :
    Registers definitions state.definitions (decls.flatMap ConstantDecl.uids)
      (state.declareConstants decls) := by
  induction decls generalizing state with
  | nil => exact .ok rfl
  | cons decl rest ih =>
    have huid : ([decl.uid] ++ rest.flatMap ConstantDecl.uids).Sublist
        (decl.uids ++ rest.flatMap ConstantDecl.uids) :=
      (List.Sublist.cons_cons decl.uid (List.nil_sublist _)).append_right _
    have hdeclare (valued : Resolved) :=
      (valued.registers_declare ⟨decl.uid, decl.name, .constant, .unknown⟩).bind ih
    apply Registers.mono _ huid
    rw [declareConstants]
    cases decl.value with
    | none => exact hdeclare state
    | some value => exact (state.registers_resolve value _).bind hdeclare

end Resolved

/-! ## Statements -/

section Statements

variable {arities : Arities}

mutual

theorem Statement.registers (statement : Statement) (scopes : Scopes) (before : Definitions) :
    Registers id before statement.uids (statement.resolve arities scopes before) := by
  cases statement with
  | labeled mark label body =>
    exact (Statement.listRegisters body scopes before).mono
      ((List.sublist_cons_self _ _).cons _)
  | whileDo mark condition body =>
    have hcondition : Registers id before [] (condition.resolve scopes mark.location before) :=
      condition.registers before
    have hall := hcondition.bind fun between => Statement.listRegisters body scopes between
    exact hall.mono ((List.sublist_append_right _ _).cons _)
  | ifElse mark condition yes no =>
    have hcondition : Registers id before [] (condition.resolve scopes mark.location before) :=
      condition.registers before
    have hall := hcondition.bind fun between =>
      (Statement.listRegisters yes scopes between).bind fun between =>
        Statement.listRegisters no scopes between
    have hbranches : (Statement.listUids yes ++ Statement.listUids no).Sublist
        (condition.uids ++ Statement.listUids yes ++ Statement.listUids no) :=
      (List.sublist_append_right _ _).append_right _
    exact hall.mono (hbranches.cons _)
  | either mark cases =>
    rw [Statement.resolve]
    split
    · exact .error rfl
    · exact (Statement.casesRegisters cases scopes before).mono (List.sublist_cons_self _ _)
  | assign mark pairs => exact (AssignmentPair.registers pairs before).mono (List.nil_sublist _)
  | call mark target arguments =>
    rw [Statement.resolve]
    split
    · exact .error rfl
    split
    · exact .error rfl
    · exact (Expression.listRegisters arguments before).mono (List.nil_sublist _)
  | macroCall mark target arguments => exact .error rfl
  | withDo mark bindings body =>
    have hall := (Resolved.registers_declareBindings ⟨scopes.enter, before⟩ bindings).bind
      fun inside => Statement.listRegisters body inside.scopes inside.definitions
    exact hall.mono (List.sublist_cons_self _ _)
  | print mark value => exact (value.registers before).mono (List.nil_sublist _)
  | assert mark value => exact (value.registers before).mono (List.nil_sublist _)
  | await mark value => exact (value.registers before).mono (List.nil_sublist _)
  | leave mark => exact Registers.mono (.ok rfl) (List.nil_sublist _)
  | skip mark => exact Registers.mono (.ok rfl) (List.nil_sublist _)
  | goto mark target => exact Registers.mono (.ok rfl) (List.nil_sublist _)

theorem Statement.listRegisters (statements : List Statement) (scopes : Scopes)
    (before : Definitions) :
    Registers id before (Statement.listUids statements)
      (Statement.listResolve arities scopes statements before) := by
  cases statements with
  | nil => exact .ok rfl
  | cons statement rest =>
    exact (statement.registers scopes before).bind fun between =>
      Statement.listRegisters rest scopes between

theorem Statement.casesRegisters (cases : List (List Statement)) (scopes : Scopes)
    (before : Definitions) :
    Registers id before (Statement.casesUids cases)
      (Statement.casesResolve arities scopes cases before) := by
  cases cases with
  | nil => exact .ok rfl
  | cons statements rest =>
    exact (Statement.listRegisters statements scopes before).bind fun between =>
      Statement.casesRegisters rest scopes between

end

/-! ## Algorithms -/

theorem registers_resolveBody (arities : Arities) (state : Resolved) (body : List Statement) :
    Registers id state.definitions (Statement.listUids body) (resolveBody arities state body) :=
  (Registers.check (Statement.unshared_checkLabels body)).bind fun _ =>
    Statement.listRegisters body state.scopes state.definitions

variable {scopes : Scopes}

theorem Procedure.registers (procedure : Procedure) (before : Definitions) :
    Registers id before procedure.uids (procedure.resolve arities scopes before) := by
  have hall := (Resolved.registers_declareVariables ⟨scopes.enter, before⟩ .parameter
    procedure.params).bind fun state =>
      (state.registers_declareVariables .localVariable procedure.locals).bind fun state =>
        registers_resolveBody arities state procedure.body
  rw [← List.append_assoc] at hall
  exact hall.mono (List.sublist_cons_self _ _)

theorem ProcessSelf.registers (scopes : Scopes) (value : ProcessSelf) (before : Definitions) :
    Registers id before [] (value.resolve scopes before) := by
  cases value with
  | single value => exact value.registers before
  | range low high => exact (low.registers before).bind fun between => high.registers between

theorem Process.registers (process : Process) (before : Definitions) :
    Registers id before process.uids (process.resolve arities scopes before) := by
  have hall := (process.selfValue.registers scopes before).bind fun between =>
    (Resolved.registers_declare ⟨scopes.enter, between⟩
      ⟨process.selfDecl, "self", .processSelf, .unknown⟩).bind fun state =>
        (state.registers_declareVariables .localVariable process.locals).bind fun state =>
          registers_resolveBody arities state process.body
  have hbody : (process.locals.flatMap VariableDecl.uids ++ Statement.listUids process.body).Sublist
      (process.selfValue.uids ++ process.locals.flatMap VariableDecl.uids ++
        Statement.listUids process.body) := by
    rw [List.append_assoc]
    exact List.sublist_append_right _ _
  exact hall.mono ((hbody.cons_cons _).cons _)

theorem Procedure.registers_list (arities : Arities) (scopes : Scopes)
    (procedures : List Procedure) (before : Definitions) :
    Registers id before (procedures.flatMap Procedure.uids)
      (Procedure.resolveList arities scopes procedures before) := by
  induction procedures generalizing before with
  | nil => exact .ok rfl
  | cons procedure rest ih => exact (procedure.registers before).bind ih

theorem Process.registers_list (arities : Arities) (scopes : Scopes) (processes : List Process)
    (before : Definitions) :
    Registers id before (processes.flatMap Process.uids)
      (Process.resolveList arities scopes processes before) := by
  induction processes generalizing before with
  | nil => exact .ok rfl
  | cons process rest ih => exact (process.registers before).bind ih

end Statements

/-- The list has no uid twice exactly if none is found to be repeated. -/
theorem Uid.firstRepeated?_eq_none_iff {seen uids : List Uid} :
    firstRepeated? seen uids = none ↔ uids.Nodup ∧ ∀ uid ∈ uids, uid ∉ seen := by
  constructor
  · exact nodup_of_firstRepeated?
  · intro h
    obtain ⟨hnodup, hfresh⟩ := h
    induction uids generalizing seen with
    | nil => rfl
    | cons uid rest ih =>
      obtain ⟨huid, hrest⟩ := List.nodup_cons.1 hnodup
      rw [firstRepeated?, if_neg (hfresh uid List.mem_cons_self)]
      apply ih hrest
      intro other hother hseen
      rcases List.mem_cons.1 hseen with rfl | hseen
      · exact huid hother
      · exact hfresh other (List.mem_cons_of_mem uid hother) hseen

namespace Algorithm

variable (algorithm : Algorithm)

theorem checkUids_ok_iff : algorithm.checkUids = .ok () ↔ algorithm.uids.Nodup := by
  have hnone : Uid.firstRepeated? [] algorithm.uids = none ↔ algorithm.uids.Nodup := by
    simp [Uid.firstRepeated?_eq_none_iff]
  rw [← hnone, checkUids]
  cases Uid.firstRepeated? [] algorithm.uids <;> simp

/-- Resolution finds a shared uid in its check of the uids or nowhere. -/
theorem unshared_resolve (hnodup : algorithm.uids.Nodup) : Unshared algorithm.resolve := by
  have hall := (Resolved.registers_declareConstants ⟨.empty, .empty⟩ algorithm.constants).bind
    fun state => (state.registers_declareVariables .global algorithm.globals).bind fun state =>
      (Procedure.registers_list algorithm.arities state.scopes algorithm.procedures
        state.definitions).bind fun between =>
          Process.registers_list algorithm.arities state.scopes algorithm.processes between
  rw [← List.append_assoc, ← List.append_assoc] at hall
  have hresolve : algorithm.resolve = (Resolved.declareConstants ⟨.empty, .empty⟩
      algorithm.constants >>= fun state => state.declareVariables .global algorithm.globals >>=
        fun state => Procedure.resolveList algorithm.arities state.scopes algorithm.procedures
          state.definitions >>= fun between => Process.resolveList algorithm.arities state.scopes
            algorithm.processes between) := by
    rw [resolve, (checkUids_ok_iff algorithm).2 hnodup]
    rfl
  rw [hresolve]
  exact (hall hnodup nofun).1

end Algorithm

end PlusCalGo
