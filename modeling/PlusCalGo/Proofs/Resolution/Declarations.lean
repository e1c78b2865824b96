import PlusCalGo.Proofs.Resolution.Placement
import PlusCalGo.Resolution.Basic

/-!
# What resolution declares and demands

The definitions of global variables are those of the declared ones, since statements and bodies
only declare local names. Resolution also sees to it that every binding of a `with` has a value.
-/

namespace PlusCalGo

namespace Definitions

/-- All definitions that are added have a property. -/
def Adds (property : Definition → Prop) (before after : Definitions) : Prop :=
  ∀ definition ∈ after.toList, definition ∈ before.toList ∨ property definition

section Adds

variable {property other : Definition → Prop} {before between after : Definitions}

theorem Adds.of_same (h : after.toList = before.toList) : Adds property before after := by
  intro definition hmem
  exact .inl (h ▸ hmem)

theorem Adds.refl (definitions : Definitions) : Adds property definitions definitions :=
  .of_same rfl

theorem Adds.trans (hfirst : Adds property before between) (hsecond : Adds property between after) :
    Adds property before after := by
  intro definition hmem
  rcases hsecond definition hmem with hmem | hadded
  · exact hfirst definition hmem
  · exact .inr hadded

theorem Adds.mono (h : Adds property before after)
    (hother : ∀ definition, property definition → other definition) : Adds other before after :=
  fun definition hmem => (h definition hmem).imp_right (hother definition)

end Adds

/-- Only names that are not global are declared. -/
abbrev AddsLocals : Definitions → Definitions → Prop := Adds (·.kind.isGlobal = false)

end Definitions

/-! ## Expressions and declarations -/

namespace Expression

section Expressions

variable {scopes : Scopes} {location : TextLocation}

mutual

theorem toList_of_resolve (expression : Expression) {before after : Definitions}
    (h : expression.resolve scopes location before = .ok after) :
    after.toList = before.toList := by
  cases expression with
  | number uid value => cases h; rfl
  | bool uid value => cases h; rfl
  | string uid value => cases h; rfl
  | identifier uid name =>
    simp only [resolve] at h
    split at h <;> cases h
    rfl
  | index uid function params =>
    obtain ⟨between, hfunction, hparams⟩ := ok_of_bind h
    exact (toList_of_listResolve params hparams).trans (toList_of_resolve function hfunction)
  | binary uid op lhs rhs =>
    obtain ⟨between, hlhs, hrhs⟩ := ok_of_bind h
    exact (toList_of_resolve rhs hrhs).trans (toList_of_resolve lhs hlhs)
  | unary uid op operand => exact toList_of_resolve operand h
  | tuple uid elements => exact toList_of_listResolve elements h
  | ifElse uid condition yes no =>
    obtain ⟨first, hcondition, h⟩ := ok_of_bind h
    obtain ⟨second, hyes, hno⟩ := ok_of_bind h
    exact (toList_of_resolve no hno).trans
      ((toList_of_resolve yes hyes).trans (toList_of_resolve condition hcondition))
  | apply uid name args => exact toList_of_listResolve args h

theorem toList_of_listResolve (expressions : List Expression) {before after : Definitions}
    (h : listResolve scopes location expressions before = .ok after) :
    after.toList = before.toList := by
  cases expressions with
  | nil => cases h; rfl
  | cons expression rest =>
    obtain ⟨between, hexpression, hrest⟩ := ok_of_bind h
    exact (toList_of_listResolve rest hrest).trans (toList_of_resolve expression hexpression)

end

end Expressions

end Expression

namespace Resolved

variable {property : Definition → Prop} {state after : Resolved}

theorem adds_of_declare {definition : Definition} (hproperty : property definition)
    (h : state.declare definition = .ok after) :
    state.definitions.Adds property after.definitions := by
  obtain ⟨⟨scopes, definitions⟩, hdeclare, h⟩ := ok_of_bind h
  cases h
  unfold Scopes.declare Definitions.add at hdeclare
  split at hdeclare
  · cases hdeclare
  split at hdeclare
  · cases hdeclare
  cases hdeclare
  intro other hmem
  rcases List.mem_append.1 hmem with hmem | hmem
  · exact .inl hmem
  · rw [List.mem_singleton.1 hmem]
    exact .inr hproperty

theorem adds_of_resolve {value : Expression} {location : TextLocation}
    (h : state.resolve value location = .ok after) :
    state.definitions.Adds property after.definitions := by
  obtain ⟨definitions, hvalue, h⟩ := ok_of_bind h
  cases h
  exact .of_same (Expression.toList_of_resolve value hvalue)

theorem adds_of_declareVariable {kind : ResourceKind → DefinitionKind} {decl : VariableDecl}
    (hproperty : property ⟨decl.uid, decl.name, kind decl.resource, decl.location⟩)
    (h : state.declareVariable kind decl = .ok after) :
    state.definitions.Adds property after.definitions := by
  unfold declareVariable at h
  cases hvalue : decl.value with
  | none =>
    rw [hvalue] at h
    exact adds_of_declare hproperty h
  | some value =>
    rw [hvalue] at h
    obtain ⟨valued, hresolve, hdeclare⟩ := ok_of_bind h
    exact (adds_of_resolve hresolve).trans (adds_of_declare hproperty hdeclare)

theorem adds_of_declareVariables {kind : ResourceKind → DefinitionKind} (decls : List VariableDecl)
    (hproperty : ∀ decl ∈ decls,
      property ⟨decl.uid, decl.name, kind decl.resource, decl.location⟩)
    (h : state.declareVariables kind decls = .ok after) :
    state.definitions.Adds property after.definitions := by
  induction decls generalizing state with
  | nil =>
    cases h
    exact .refl _
  | cons decl rest ih =>
    obtain ⟨between, hdecl, hrest⟩ := ok_of_bind h
    obtain ⟨hfirst, hothers⟩ := List.forall_mem_cons.1 hproperty
    exact (adds_of_declareVariable hfirst hdecl).trans (ih hothers hrest)

theorem adds_of_declareConstants (decls : List ConstantDecl)
    (h : state.declareConstants decls = .ok after) :
    state.definitions.AddsLocals after.definitions := by
  induction decls generalizing state with
  | nil =>
    cases h
    exact .refl _
  | cons decl rest ih =>
    unfold declareConstants at h
    cases hvalue : decl.value with
    | none =>
      rw [hvalue] at h
      change (state.declare ⟨decl.uid, decl.name, .constant, .unknown⟩ >>=
        fun between => between.declareConstants rest) = .ok after at h
      obtain ⟨between, hdeclare, hrest⟩ := ok_of_bind h
      have hdeclared : state.definitions.AddsLocals between.definitions :=
        adds_of_declare rfl hdeclare
      exact hdeclared.trans (ih hrest)
    | some value =>
      rw [hvalue] at h
      obtain ⟨valued, hresolve, h⟩ := ok_of_bind h
      obtain ⟨between, hdeclare, hrest⟩ := ok_of_bind h
      have hdeclared : valued.definitions.AddsLocals between.definitions :=
        adds_of_declare rfl hdeclare
      exact (adds_of_resolve hresolve).trans (hdeclared.trans (ih hrest))

/-- The bindings of a `with` are local names, and have values. -/
theorem valued_of_declareBindings (bindings : List VariableDecl)
    (h : state.declareBindings bindings = .ok after) :
    state.definitions.AddsLocals after.definitions ∧
      ∀ decl ∈ bindings, decl.value.isSome = true := by
  induction bindings generalizing state with
  | nil =>
    cases h
    exact ⟨.refl _, by simp⟩
  | cons decl rest ih =>
    simp only [declareBindings] at h
    split at h
    · simp [bind, Except.bind, throw, throwThe, MonadExceptOf.throw] at h
    rename_i hvalue
    obtain ⟨between, hdecl, hrest⟩ := ok_of_bind h
    obtain ⟨hothers, hvalued⟩ := ih hrest
    have hfirst : state.definitions.AddsLocals between.definitions :=
      adds_of_declareVariable rfl hdecl
    refine ⟨hfirst.trans hothers, ?_⟩
    refine List.forall_mem_cons.2 ⟨?_, hvalued⟩
    simpa [Option.isSome_iff_ne_none] using hvalue

end Resolved

/-! ## Statements -/

namespace Statement

/-- The bindings of a `with` have values. -/
def Valued : Statement → Prop
  | withDo _ bindings _ => ∀ decl ∈ bindings, decl.value.isSome = true
  | _ => True

abbrev ListValued (statements : List Statement) : Prop := ∀ statement ∈ statements, statement.Valued

section Statements

variable {arities : Arities}

theorem adds_of_pairs {scopes : Scopes} {location : TextLocation} (pairs : List AssignmentPair)
    {before after : Definitions}
    (h : AssignmentPair.resolveList scopes location pairs before = .ok after) :
    before.AddsLocals after := by
  induction pairs generalizing before with
  | nil =>
    cases h
    exact .refl _
  | cons pair rest ih =>
    simp only [AssignmentPair.resolveList] at h
    split at h
    · simp [bind, Except.bind, throw, throwThe, MonadExceptOf.throw] at h
    obtain ⟨first, hlhs, h⟩ := ok_of_bind h
    obtain ⟨second, hrhs, hrest⟩ := ok_of_bind h
    have hlhs := Expression.toList_of_resolve pair.lhs hlhs
    have hrhs := Expression.toList_of_resolve pair.rhs hrhs
    exact (Definitions.Adds.of_same (hrhs.trans hlhs)).trans (ih hrest)

mutual

theorem valued_of_resolve (statement : Statement) {scopes : Scopes} {before after : Definitions}
    (h : statement.resolve arities scopes before = .ok after) :
    before.AddsLocals after ∧ statement.Valued ∧ statement.Nested ListValued := by
  cases statement with
  | labeled mark label body =>
    obtain ⟨hadds, hbody⟩ := valued_of_listResolve body h
    exact ⟨hadds, trivial, hbody⟩
  | whileDo mark condition body =>
    obtain ⟨between, hcondition, hbody⟩ := ok_of_bind h
    obtain ⟨hadds, hbody⟩ := valued_of_listResolve body hbody
    have hcondition := Expression.toList_of_resolve condition hcondition
    exact ⟨(Definitions.Adds.of_same hcondition).trans hadds, trivial, hbody⟩
  | ifElse mark condition yes no =>
    obtain ⟨first, hcondition, h⟩ := ok_of_bind h
    obtain ⟨second, hyes, hno⟩ := ok_of_bind h
    obtain ⟨hyesAdds, hyes⟩ := valued_of_listResolve yes hyes
    obtain ⟨hnoAdds, hno⟩ := valued_of_listResolve no hno
    have hcondition := Expression.toList_of_resolve condition hcondition
    exact ⟨(Definitions.Adds.of_same hcondition).trans (hyesAdds.trans hnoAdds), trivial, hyes, hno⟩
  | either mark cases =>
    simp only [resolve] at h
    split at h
    · cases h
    obtain ⟨hadds, hcases⟩ := valued_of_casesResolve cases h
    exact ⟨hadds, trivial, hcases⟩
  | assign mark pairs => exact ⟨adds_of_pairs pairs h, trivial, trivial⟩
  | call mark target arguments =>
    simp only [resolve] at h
    split at h
    · cases h
    split at h
    · cases h
    exact ⟨.of_same (Expression.toList_of_listResolve arguments h), trivial, trivial⟩
  | macroCall mark target arguments => cases h
  | withDo mark bindings body =>
    obtain ⟨inside, hbindings, hbody⟩ := ok_of_bind h
    obtain ⟨hbindingsAdds, hvalued⟩ := Resolved.valued_of_declareBindings bindings hbindings
    obtain ⟨hbodyAdds, hbody⟩ := valued_of_listResolve body hbody
    exact ⟨hbindingsAdds.trans hbodyAdds, hvalued, hbody⟩
  | print mark value => exact ⟨.of_same (Expression.toList_of_resolve value h), trivial, trivial⟩
  | assert mark value => exact ⟨.of_same (Expression.toList_of_resolve value h), trivial, trivial⟩
  | await mark value => exact ⟨.of_same (Expression.toList_of_resolve value h), trivial, trivial⟩
  | leave mark =>
    cases h
    exact ⟨.refl _, trivial, trivial⟩
  | skip mark =>
    cases h
    exact ⟨.refl _, trivial, trivial⟩
  | goto mark target =>
    cases h
    exact ⟨.refl _, trivial, trivial⟩

theorem valued_of_listResolve (statements : List Statement) {scopes : Scopes}
    {before after : Definitions} (h : listResolve arities scopes statements before = .ok after) :
    before.AddsLocals after ∧ Throughout ListValued statements := by
  cases statements with
  | nil =>
    cases h
    exact ⟨.refl _, List.forall_mem_nil _, trivial⟩
  | cons statement rest =>
    obtain ⟨between, hstatement, hrest⟩ := ok_of_bind h
    obtain ⟨hfirst, hvalued, hnested⟩ := valued_of_resolve statement hstatement
    obtain ⟨hsecond, hothers⟩ := valued_of_listResolve rest hrest
    exact ⟨hfirst.trans hsecond, List.forall_mem_cons.2 ⟨hvalued, hothers.1⟩, hnested, hothers.2⟩

theorem valued_of_casesResolve (cases : List (List Statement)) {scopes : Scopes}
    {before after : Definitions} (h : casesResolve arities scopes cases before = .ok after) :
    before.AddsLocals after ∧ CasesNested ListValued cases := by
  cases cases with
  | nil =>
    cases h
    exact ⟨.refl _, trivial⟩
  | cons body rest =>
    obtain ⟨between, hbody, hrest⟩ := ok_of_bind h
    obtain ⟨hfirst, hbody⟩ := valued_of_listResolve body hbody
    obtain ⟨hsecond, hrest⟩ := valued_of_casesResolve rest hrest
    exact ⟨hfirst.trans hsecond, hbody, hrest⟩

end

end Statements

end Statement

/-! ## Bodies and algorithms -/

section Bodies

variable {arities : Arities} {scopes : Scopes} {before after : Definitions}

theorem valued_of_resolveBody {state : Resolved} {body : List Statement}
    (h : resolveBody arities state body = .ok after) :
    state.definitions.AddsLocals after ∧ Statement.Throughout Statement.ListValued body := by
  obtain ⟨_, _, h⟩ := ok_of_bind h
  exact Statement.valued_of_listResolve body h

theorem Procedure.valued_of_resolve {procedure : Procedure}
    (h : procedure.resolve arities scopes before = .ok after) :
    before.AddsLocals after ∧ Statement.Throughout Statement.ListValued procedure.body := by
  obtain ⟨first, hparams, h⟩ := ok_of_bind h
  obtain ⟨second, hlocals, h⟩ := ok_of_bind h
  obtain ⟨hbodyAdds, hbody⟩ := valued_of_resolveBody h
  have hparams : before.AddsLocals first.definitions :=
    Resolved.adds_of_declareVariables _ (fun _ _ => rfl) hparams
  have hlocals : first.definitions.AddsLocals second.definitions :=
    Resolved.adds_of_declareVariables _ (fun _ _ => rfl) hlocals
  exact ⟨hparams.trans (hlocals.trans hbodyAdds), hbody⟩

theorem ProcessSelf.adds_of_resolve {value : ProcessSelf}
    (h : value.resolve scopes before = .ok after) : before.AddsLocals after := by
  cases value with
  | single value => exact .of_same (Expression.toList_of_resolve value h)
  | range low high =>
    obtain ⟨between, hlow, hhigh⟩ := ok_of_bind h
    have hlow := Expression.toList_of_resolve low hlow
    exact .of_same ((Expression.toList_of_resolve high hhigh).trans hlow)

theorem Process.valued_of_resolve {process : Process}
    (h : process.resolve arities scopes before = .ok after) :
    before.AddsLocals after ∧ Statement.Throughout Statement.ListValued process.body := by
  obtain ⟨first, hvalue, h⟩ := ok_of_bind h
  obtain ⟨second, hself, h⟩ := ok_of_bind h
  obtain ⟨third, hlocals, h⟩ := ok_of_bind h
  obtain ⟨hbodyAdds, hbody⟩ := valued_of_resolveBody h
  have hvalue := ProcessSelf.adds_of_resolve hvalue
  have hself : (Resolved.mk scopes.enter first).definitions.AddsLocals second.definitions :=
    Resolved.adds_of_declare rfl hself
  have hlocals : second.definitions.AddsLocals third.definitions :=
    Resolved.adds_of_declareVariables _ (fun _ _ => rfl) hlocals
  exact ⟨hvalue.trans (hself.trans (hlocals.trans hbodyAdds)), hbody⟩

theorem Procedure.valued_of_resolveList (procedures : List Procedure)
    (h : Procedure.resolveList arities scopes procedures before = .ok after) :
    before.AddsLocals after ∧ ∀ procedure ∈ procedures,
      Statement.Throughout Statement.ListValued procedure.body := by
  induction procedures generalizing before with
  | nil =>
    cases h
    exact ⟨.refl _, by simp⟩
  | cons procedure rest ih =>
    obtain ⟨between, hprocedure, hrest⟩ := ok_of_bind h
    obtain ⟨hfirst, hbody⟩ := Procedure.valued_of_resolve hprocedure
    obtain ⟨hsecond, hothers⟩ := ih hrest
    exact ⟨hfirst.trans hsecond, List.forall_mem_cons.2 ⟨hbody, hothers⟩⟩

theorem Process.valued_of_resolveList (processes : List Process)
    (h : Process.resolveList arities scopes processes before = .ok after) :
    before.AddsLocals after ∧ ∀ process ∈ processes,
      Statement.Throughout Statement.ListValued process.body := by
  induction processes generalizing before with
  | nil =>
    cases h
    exact ⟨.refl _, by simp⟩
  | cons process rest ih =>
    obtain ⟨between, hprocess, hrest⟩ := ok_of_bind h
    obtain ⟨hfirst, hbody⟩ := Process.valued_of_resolve hprocess
    obtain ⟨hsecond, hothers⟩ := ih hrest
    exact ⟨hfirst.trans hsecond, List.forall_mem_cons.2 ⟨hbody, hothers⟩⟩

end Bodies

/-- A global variable has been declared as one of these. -/
def Definition.DeclaredIn (decls : List VariableDecl) (definition : Definition) : Prop :=
  definition.kind.isGlobal = true → ∃ decl ∈ decls,
    definition.name = decl.name ∧ definition.resource = decl.resource

theorem Definition.declaredIn_of_local {decls : List VariableDecl} (definition : Definition)
    (h : definition.kind.isGlobal = false) : definition.DeclaredIn decls := by
  intro hglobal
  rw [h] at hglobal
  cases hglobal

namespace Algorithm

variable {algorithm : Algorithm} {definitions : Definitions}

/-- The definitions of globals are those of the declared ones, and all bindings have values. -/
theorem valued_of_resolve (h : algorithm.resolve = .ok definitions) :
    (∀ definition ∈ definitions.toList, definition.DeclaredIn algorithm.globals) ∧
    (∀ procedure ∈ algorithm.procedures,
      Statement.Throughout Statement.ListValued procedure.body) ∧
    ∀ process ∈ algorithm.processes, Statement.Throughout Statement.ListValued process.body := by
  obtain ⟨_, _, h⟩ := ok_of_bind h
  obtain ⟨first, hconstants, h⟩ := ok_of_bind h
  obtain ⟨second, hglobals, h⟩ := ok_of_bind h
  obtain ⟨third, hprocedures, hprocesses⟩ := ok_of_bind h
  have hconstants := Resolved.adds_of_declareConstants _ hconstants
  have hglobals : first.definitions.Adds (·.DeclaredIn algorithm.globals) second.definitions :=
    Resolved.adds_of_declareVariables _ (fun decl hmem _ => ⟨decl, hmem, rfl, rfl⟩) hglobals
  obtain ⟨hproceduresAdd, hprocedures⟩ := Procedure.valued_of_resolveList _ hprocedures
  obtain ⟨hprocessesAdd, hprocesses⟩ := Process.valued_of_resolveList _ hprocesses
  refine ⟨?_, hprocedures, hprocesses⟩
  have hlocal : ∀ definition : Definition, definition.kind.isGlobal = false →
      definition.DeclaredIn algorithm.globals := Definition.declaredIn_of_local
  have hall := (hconstants.mono hlocal).trans
    (hglobals.trans ((hproceduresAdd.mono hlocal).trans (hprocessesAdd.mono hlocal)))
  intro definition hmem
  exact (hall definition hmem).resolve_left List.not_mem_nil

end Algorithm

end PlusCalGo
