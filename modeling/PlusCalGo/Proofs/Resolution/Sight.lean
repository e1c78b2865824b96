import PlusCalGo.Proofs.Resolution.Linking

/-!
# What is in sight

Resolution makes each identifier refer to the declaration that its name has in the scopes around it.
What is said of one part of an algorithm is said of the definitions in the end, since references and
definitions are only added.
-/

namespace PlusCalGo

/-! ## Definitions in the end -/

namespace Definitions

/-- All that is known here is still known in the end. -/
structure Within (definitions final : Definitions) : Prop where
  references : ∀ reference ∈ definitions.references, reference ∈ final.references
  keeps : ∀ declaration definition, definitions.find? declaration = some definition →
    final.find? declaration = some definition

/-- After a part of resolution this is settled: it holds of all definitions that the rest of it can
lead to. -/
def Settles (before after : Definitions) (property : Definitions → Prop) : Prop :=
  ∀ final : Definitions, (final.references.map (·.1)).Nodup → after.Within final →
    before.Within final ∧ property final

/-- The names refer to what they stand for in the scopes. -/
def Sees (definitions : Definitions) (scopes : Scopes) (named : List (Uid × String)) : Prop :=
  ∀ uid name, (uid, name) ∈ named → ∃ declaration, scopes.lookup name = some declaration ∧
    definitions.followReference uid = .ok declaration

section Settles

variable {before between after : Definitions} {property other : Definitions → Prop}
  {scopes : Scopes} {first second : List (Uid × String)}

theorem Settles.refl (h : ∀ final, property final) : before.Settles before property :=
  fun final _ hwithin => ⟨hwithin, h final⟩

theorem Settles.and (hfirst : before.Settles between property)
    (hsecond : between.Settles after other) :
    before.Settles after (fun final => property final ∧ other final) := by
  intro final hnodup hwithin
  obtain ⟨hbetween, hother⟩ := hsecond final hnodup hwithin
  obtain ⟨hbefore, hproperty⟩ := hfirst final hnodup hbetween
  exact ⟨hbefore, hproperty, hother⟩

theorem Settles.mono (h : before.Settles after property)
    (hother : ∀ final, property final → other final) : before.Settles after other := by
  intro final hnodup hwithin
  obtain ⟨hbefore, hproperty⟩ := h final hnodup hwithin
  exact ⟨hbefore, hother final hproperty⟩

theorem sees_nil (definitions : Definitions) : definitions.Sees scopes [] := by
  intro uid name hmem
  cases hmem

theorem Sees.append {definitions : Definitions} (hfirst : definitions.Sees scopes first)
    (hsecond : definitions.Sees scopes second) : definitions.Sees scopes (first ++ second) := by
  intro uid name hmem
  rcases List.mem_append.1 hmem with hmem | hmem
  · exact hfirst uid name hmem
  · exact hsecond uid name hmem

theorem Settles.append (hfirst : before.Settles between (·.Sees scopes first))
    (hsecond : between.Settles after (·.Sees scopes second)) :
    before.Settles after (·.Sees scopes (first ++ second)) :=
  (hfirst.and hsecond).mono fun _ h => h.1.append h.2

end Settles

end Definitions

/-! ## Expressions -/

namespace Expression

section Expressions

variable {scopes : Scopes} {location : TextLocation}

mutual

theorem settles_of_resolve (expression : Expression) {before after : Definitions}
    (h : expression.resolve scopes location before = .ok after) :
    before.Settles after (·.Sees scopes expression.named) := by
  cases expression with
  | number uid value => cases h; exact .refl Definitions.sees_nil
  | bool uid value => cases h; exact .refl Definitions.sees_nil
  | string uid value => cases h; exact .refl Definitions.sees_nil
  | identifier uid name =>
    simp only [resolve] at h
    split at h
    · rename_i declaration hlookup
      cases h
      intro final hnodup hwithin
      refine ⟨⟨fun reference hmem => hwithin.references reference (List.mem_cons_of_mem _ hmem),
        hwithin.keeps⟩, ?_⟩
      intro other otherName hmem
      rw [named, List.mem_singleton, Prod.mk.injEq] at hmem
      obtain ⟨rfl, rfl⟩ := hmem
      refine ⟨declaration, hlookup, ?_⟩
      -- No other reference of the identifier can come in front of this one.
      have hmem := hwithin.references (other, declaration) List.mem_cons_self
      rw [Definitions.followReference, Definitions.declarationOf?,
        Definitions.find?_of_mem hnodup hmem]
      rfl
    · cases h
  | index uid function params =>
    obtain ⟨between, hfunction, hparams⟩ := ok_of_bind h
    exact (settles_of_resolve function hfunction).append (settles_of_listResolve params hparams)
  | binary uid op lhs rhs =>
    obtain ⟨between, hlhs, hrhs⟩ := ok_of_bind h
    exact (settles_of_resolve lhs hlhs).append (settles_of_resolve rhs hrhs)
  | unary uid op operand => exact settles_of_resolve operand h
  | tuple uid elements => exact settles_of_listResolve elements h
  | ifElse uid condition yes no =>
    obtain ⟨first, hcondition, h⟩ := ok_of_bind h
    obtain ⟨second, hyes, hno⟩ := ok_of_bind h
    exact ((settles_of_resolve condition hcondition).append (settles_of_resolve yes hyes)).append
      (settles_of_resolve no hno)
  | apply uid name args => exact settles_of_listResolve args h

theorem settles_of_listResolve (expressions : List Expression) {before after : Definitions}
    (h : listResolve scopes location expressions before = .ok after) :
    before.Settles after (·.Sees scopes (listNamed expressions)) := by
  cases expressions with
  | nil => cases h; exact .refl Definitions.sees_nil
  | cons expression rest =>
    obtain ⟨between, hexpression, hrest⟩ := ok_of_bind h
    exact (settles_of_resolve expression hexpression).append (settles_of_listResolve rest hrest)

end

end Expressions

end Expression

/-! ## Declarations -/

namespace Scopes

/-- Puts a name into the innermost scope. -/
def add (scopes : Scopes) (name : String) (declaration : Uid) : Scopes :=
  { scopes with inner := (name, declaration) :: scopes.inner }

/-- The name is not in the innermost scope. -/
def Fresh (scopes : Scopes) (name : String) : Prop := ∀ entry ∈ scopes.inner, entry.1 ≠ name

def addAll (scopes : Scopes) : List VariableDecl → Scopes
  | [] => scopes
  | decl :: rest => (scopes.add decl.name decl.uid).addAll rest

/-- The declarations can be made one after the other, and the initial value of each one sees those
before it. -/
def Takes (final : Definitions) (kind : ResourceKind → DefinitionKind) (scopes : Scopes) :
    List VariableDecl → Prop
  | [] => True
  | decl :: rest =>
    (∀ value ∈ decl.value, final.Sees scopes value.named) ∧ scopes.Fresh decl.name ∧
      final.find? decl.uid = some ⟨decl.uid, decl.name, kind decl.resource, decl.location⟩ ∧
      (scopes.add decl.name decl.uid).Takes final kind rest

/-- The names are different, and none of them is in the innermost scope. -/
def Distinct (scopes : Scopes) (entries : List (String × Uid)) : Prop :=
  (entries.map (·.1)).Nodup ∧ ∀ entry ∈ entries, scopes.Fresh entry.1

theorem Distinct.cons {scopes : Scopes} {name : String} {declaration : Uid}
    {rest : List (String × Uid)} (hfresh : scopes.Fresh name)
    (hrest : (scopes.add name declaration).Distinct rest) :
    scopes.Distinct ((name, declaration) :: rest) := by
  refine ⟨List.nodup_cons.2 ⟨?_, hrest.1⟩, List.forall_mem_cons.2 ⟨hfresh, ?_⟩⟩
  · intro hmem
    obtain ⟨entry, hentry, hname⟩ := List.mem_map.1 hmem
    exact hrest.2 entry hentry (name, declaration) List.mem_cons_self hname.symm
  · exact fun entry hentry other hother =>
      hrest.2 entry hentry other (List.mem_cons_of_mem _ hother)

section Takes

variable {final : Definitions} {kind : ResourceKind → DefinitionKind} {scopes : Scopes}
  {decls : List VariableDecl}

theorem Takes.find (h : scopes.Takes final kind decls) : ∀ decl ∈ decls,
    final.find? decl.uid = some ⟨decl.uid, decl.name, kind decl.resource, decl.location⟩ := by
  induction decls generalizing scopes with
  | nil => exact List.forall_mem_nil _
  | cons decl rest ih => exact List.forall_mem_cons.2 ⟨h.2.2.1, ih h.2.2.2⟩

theorem Takes.distinct (h : scopes.Takes final kind decls) :
    scopes.Distinct (decls.map fun decl => (decl.name, decl.uid)) := by
  induction decls generalizing scopes with
  | nil => exact ⟨List.nodup_nil, List.forall_mem_nil _⟩
  | cons decl rest ih => exact .cons h.2.1 (ih h.2.2.2)

theorem addAll_eq (scopes : Scopes) (decls : List VariableDecl) : scopes.addAll decls =
    ⟨(decls.map fun decl => (decl.name, decl.uid)).reverse ++ scopes.inner, scopes.outer⟩ := by
  induction decls generalizing scopes with
  | nil => rfl
  | cons decl rest ih => simp [addAll, ih, add]

end Takes

theorem settles_of_declare {scopes inside : Scopes} {before after : Definitions}
    {definition : Definition} (h : scopes.declare before definition = .ok (inside, after)) :
    inside = scopes.add definition.name definition.uid ∧ scopes.Fresh definition.name ∧
      before.Settles after (·.find? definition.uid = some definition) := by
  unfold declare Definitions.add at h
  split at h
  · cases h
  rename_i hfresh
  cases hold : before.find? definition.uid with
  | some old => simp [hold, bind, Except.bind] at h
  | none =>
    simp only [hold, bind, Except.bind] at h
    injection h with h
    injection h with hinside hafter
    subst hinside hafter
    have hkeeps (declaration : Uid) (found : Definition)
        (hfound : before.find? declaration = some found) :
        Definitions.find? { before with toList := before.toList ++ [definition] } declaration =
          some found := by
      rw [Definitions.find?_append, hfound]
      rfl
    have hnew : Definitions.find? { before with toList := before.toList ++ [definition] }
        definition.uid = some definition := by
      rw [Definitions.find?_append, hold, if_pos rfl]
      rfl
    refine ⟨rfl, ?_, ?_⟩
    · intro entry hmem hname
      exact hfresh (List.any_eq_true.2 ⟨entry, hmem, by simpa using hname⟩)
    intro final _ hwithin
    exact ⟨⟨hwithin.references, fun declaration found hfound =>
      hwithin.keeps declaration found (hkeeps declaration found hfound)⟩,
      hwithin.keeps _ _ hnew⟩

end Scopes

namespace Resolved

variable {state after : Resolved}

theorem settles_of_declare {definition : Definition} (h : state.declare definition = .ok after) :
    after.scopes = state.scopes.add definition.name definition.uid ∧
      state.scopes.Fresh definition.name ∧
      state.definitions.Settles after.definitions
        (·.find? definition.uid = some definition) := by
  obtain ⟨⟨scopes, definitions⟩, hdeclare, h⟩ := ok_of_bind h
  cases h
  exact Scopes.settles_of_declare hdeclare

theorem settles_of_resolve {value : Expression} {location : TextLocation}
    (h : state.resolve value location = .ok after) :
    after.scopes = state.scopes ∧
      state.definitions.Settles after.definitions (·.Sees state.scopes value.named) := by
  obtain ⟨definitions, hresolve, h⟩ := ok_of_bind h
  cases h
  exact ⟨rfl, Expression.settles_of_resolve value hresolve⟩

theorem settles_of_declareVariable {kind : ResourceKind → DefinitionKind} {decl : VariableDecl}
    (h : state.declareVariable kind decl = .ok after) :
    after.scopes = state.scopes.add decl.name decl.uid ∧
      state.definitions.Settles after.definitions fun final =>
        (∀ value ∈ decl.value, final.Sees state.scopes value.named) ∧
          state.scopes.Fresh decl.name ∧ final.find? decl.uid =
            some ⟨decl.uid, decl.name, kind decl.resource, decl.location⟩ := by
  unfold declareVariable at h
  cases hvalue : decl.value with
  | none =>
    rw [hvalue] at h
    obtain ⟨hscopes, hfresh, hfind⟩ := settles_of_declare h
    exact ⟨hscopes, hfind.mono fun final hfind => ⟨by simp, hfresh, hfind⟩⟩
  | some value =>
    rw [hvalue] at h
    obtain ⟨valued, hresolve, hdeclare⟩ := ok_of_bind h
    obtain ⟨hsame, hsees⟩ := settles_of_resolve hresolve
    obtain ⟨hscopes, hfresh, hfind⟩ := settles_of_declare hdeclare
    rw [hsame] at hscopes hfresh
    exact ⟨hscopes, (hsees.and hfind).mono fun final h => ⟨by simpa using h.1, hfresh, h.2⟩⟩

theorem settles_of_declareVariables {kind : ResourceKind → DefinitionKind}
    (decls : List VariableDecl) (h : state.declareVariables kind decls = .ok after) :
    after.scopes = state.scopes.addAll decls ∧
      state.definitions.Settles after.definitions
        (fun final => state.scopes.Takes final kind decls) := by
  induction decls generalizing state with
  | nil =>
    cases h
    exact ⟨rfl, .refl fun _ => trivial⟩
  | cons decl rest ih =>
    obtain ⟨between, hdecl, hrest⟩ := ok_of_bind h
    obtain ⟨hscopes, hfirst⟩ := settles_of_declareVariable hdecl
    obtain ⟨hafter, hothers⟩ := ih hrest
    rw [hscopes] at hafter hothers
    exact ⟨hafter, (hfirst.and hothers).mono fun final h => ⟨h.1.1, h.1.2.1, h.1.2.2, h.2⟩⟩

theorem settles_of_declareBindings (bindings : List VariableDecl)
    (h : state.declareBindings bindings = .ok after) :
    after.scopes = state.scopes.addAll bindings ∧
      state.definitions.Settles after.definitions
        (fun final => state.scopes.Takes final (fun _ => .bound) bindings) := by
  refine settles_of_declareVariables bindings ?_
  induction bindings generalizing state with
  | nil => exact h
  | cons decl rest ih =>
    simp only [declareBindings] at h
    split at h
    · simp [bind, Except.bind, throw, throwThe, MonadExceptOf.throw] at h
    obtain ⟨between, hdecl, hrest⟩ := ok_of_bind h
    simp only [declareVariables, hdecl, bind, Except.bind]
    exact ih hrest

end Resolved

/-! ## Statements -/

namespace Statement

mutual

/-- All names in the statement refer to what they stand for, and bindings can be made. -/
def Scoped (final : Definitions) (scopes : Scopes) : Statement → Prop
  | labeled _ _ body => ListScoped final scopes body
  | whileDo _ condition body =>
    final.Sees scopes condition.named ∧ ListScoped final scopes body
  | ifElse _ condition yes no =>
    final.Sees scopes condition.named ∧ ListScoped final scopes yes ∧ ListScoped final scopes no
  | either _ cases => CasesScoped final scopes cases
  | assign _ pairs => ∀ pair ∈ pairs, final.Sees scopes (pair.lhs.named ++ pair.rhs.named)
  | call _ _ arguments | macroCall _ _ arguments =>
    final.Sees scopes (Expression.listNamed arguments)
  | withDo _ bindings body =>
    scopes.enter.Takes final (fun _ => .bound) bindings ∧
      ListScoped final (scopes.enter.addAll bindings) body
  | print _ value | assert _ value | await _ value => final.Sees scopes value.named
  | leave _ | skip _ | goto .. => True

def ListScoped (final : Definitions) (scopes : Scopes) : List Statement → Prop
  | [] => True
  | statement :: rest => statement.Scoped final scopes ∧ ListScoped final scopes rest

def CasesScoped (final : Definitions) (scopes : Scopes) : List (List Statement) → Prop
  | [] => True
  | body :: rest => ListScoped final scopes body ∧ CasesScoped final scopes rest

end

section Statements

variable {arities : Arities}

theorem settles_of_pairs {scopes : Scopes} {location : TextLocation} (pairs : List AssignmentPair)
    {before after : Definitions}
    (h : AssignmentPair.resolveList scopes location pairs before = .ok after) :
    before.Settles after fun final =>
      ∀ pair ∈ pairs, final.Sees scopes (pair.lhs.named ++ pair.rhs.named) := by
  induction pairs generalizing before with
  | nil =>
    cases h
    exact .refl fun _ => List.forall_mem_nil _
  | cons pair rest ih =>
    simp only [AssignmentPair.resolveList] at h
    split at h
    · simp [bind, Except.bind, throw, throwThe, MonadExceptOf.throw] at h
    obtain ⟨first, hlhs, h⟩ := ok_of_bind h
    obtain ⟨second, hrhs, hrest⟩ := ok_of_bind h
    have hpair := (Expression.settles_of_resolve pair.lhs hlhs).append
      (Expression.settles_of_resolve pair.rhs hrhs)
    exact (hpair.and (ih hrest)).mono fun final h => List.forall_mem_cons.2 h

mutual

theorem settles_of_resolve (statement : Statement) {scopes : Scopes} {before after : Definitions}
    (h : statement.resolve arities scopes before = .ok after) :
    before.Settles after (fun final => statement.Scoped final scopes) := by
  cases statement with
  | labeled mark label body => exact settles_of_listResolve body h
  | whileDo mark condition body =>
    obtain ⟨between, hcondition, hbody⟩ := ok_of_bind h
    exact (Expression.settles_of_resolve condition hcondition).and
      (settles_of_listResolve body hbody)
  | ifElse mark condition yes no =>
    obtain ⟨first, hcondition, h⟩ := ok_of_bind h
    obtain ⟨second, hyes, hno⟩ := ok_of_bind h
    exact (Expression.settles_of_resolve condition hcondition).and
      ((settles_of_listResolve yes hyes).and (settles_of_listResolve no hno))
  | either mark cases =>
    simp only [resolve] at h
    split at h
    · cases h
    exact settles_of_casesResolve cases h
  | assign mark pairs => exact settles_of_pairs pairs h
  | call mark target arguments =>
    simp only [resolve] at h
    split at h
    · cases h
    split at h
    · cases h
    exact Expression.settles_of_listResolve arguments h
  | macroCall mark target arguments => cases h
  | withDo mark bindings body =>
    obtain ⟨inside, hbindings, hbody⟩ := ok_of_bind h
    obtain ⟨hscopes, hbindings⟩ := Resolved.settles_of_declareBindings bindings hbindings
    have hbody := settles_of_listResolve body hbody
    rw [hscopes] at hbody
    exact hbindings.and hbody
  | print mark value => exact Expression.settles_of_resolve value h
  | assert mark value => exact Expression.settles_of_resolve value h
  | await mark value => exact Expression.settles_of_resolve value h
  | leave mark =>
    cases h
    exact .refl fun _ => trivial
  | skip mark =>
    cases h
    exact .refl fun _ => trivial
  | goto mark target =>
    cases h
    exact .refl fun _ => trivial

theorem settles_of_listResolve (statements : List Statement) {scopes : Scopes}
    {before after : Definitions} (h : listResolve arities scopes statements before = .ok after) :
    before.Settles after (fun final => ListScoped final scopes statements) := by
  cases statements with
  | nil =>
    cases h
    exact .refl fun _ => trivial
  | cons statement rest =>
    obtain ⟨between, hstatement, hrest⟩ := ok_of_bind h
    exact (settles_of_resolve statement hstatement).and (settles_of_listResolve rest hrest)

theorem settles_of_casesResolve (cases : List (List Statement)) {scopes : Scopes}
    {before after : Definitions} (h : casesResolve arities scopes cases before = .ok after) :
    before.Settles after (fun final => CasesScoped final scopes cases) := by
  cases cases with
  | nil =>
    cases h
    exact .refl fun _ => trivial
  | cons body rest =>
    obtain ⟨between, hbody, hrest⟩ := ok_of_bind h
    exact (settles_of_listResolve body hbody).and (settles_of_casesResolve rest hrest)

end

end Statements

end Statement

/-! ## Bodies and algorithms -/

namespace Scopes

def addConstants (scopes : Scopes) : List ConstantDecl → Scopes
  | [] => scopes
  | decl :: rest => (scopes.add decl.name decl.uid).addConstants rest

def TakesConstants (final : Definitions) (scopes : Scopes) : List ConstantDecl → Prop
  | [] => True
  | decl :: rest =>
    scopes.Fresh decl.name ∧
      final.find? decl.uid = some ⟨decl.uid, decl.name, .constant, .unknown⟩ ∧
      (scopes.add decl.name decl.uid).TakesConstants final rest

section TakesConstants

variable {final : Definitions} {scopes : Scopes} {decls : List ConstantDecl}

theorem TakesConstants.find (h : scopes.TakesConstants final decls) : ∀ decl ∈ decls,
    final.find? decl.uid = some ⟨decl.uid, decl.name, .constant, .unknown⟩ := by
  induction decls generalizing scopes with
  | nil => exact List.forall_mem_nil _
  | cons decl rest ih => exact List.forall_mem_cons.2 ⟨h.2.1, ih h.2.2⟩

theorem TakesConstants.distinct (h : scopes.TakesConstants final decls) :
    scopes.Distinct (decls.map fun decl => (decl.name, decl.uid)) := by
  induction decls generalizing scopes with
  | nil => exact ⟨List.nodup_nil, List.forall_mem_nil _⟩
  | cons decl rest ih => exact .cons h.1 (ih h.2.2)

theorem addConstants_eq (scopes : Scopes) (decls : List ConstantDecl) : scopes.addConstants decls =
    ⟨(decls.map fun decl => (decl.name, decl.uid)).reverse ++ scopes.inner, scopes.outer⟩ := by
  induction decls generalizing scopes with
  | nil => rfl
  | cons decl rest ih => simp [addConstants, ih, add]

end TakesConstants

end Scopes

theorem Resolved.settles_of_declareConstants {state after : Resolved} (decls : List ConstantDecl)
    (h : state.declareConstants decls = .ok after) :
    after.scopes = state.scopes.addConstants decls ∧
      state.definitions.Settles after.definitions
        (fun final => state.scopes.TakesConstants final decls) := by
  induction decls generalizing state with
  | nil =>
    cases h
    exact ⟨rfl, .refl fun _ => trivial⟩
  | cons decl rest ih =>
    have hvalued : ∃ valued : Resolved, valued.scopes = state.scopes ∧
        state.definitions.Settles valued.definitions (fun _ => True) ∧
        (do (← valued.declare ⟨decl.uid, decl.name, .constant, .unknown⟩).declareConstants rest) =
          .ok after := by
      unfold declareConstants at h
      cases hvalue : decl.value with
      | none =>
        rw [hvalue] at h
        exact ⟨state, rfl, .refl fun _ => trivial, h⟩
      | some value =>
        rw [hvalue] at h
        obtain ⟨valued, hresolve, h⟩ := ok_of_bind h
        obtain ⟨hscopes, hsees⟩ := settles_of_resolve hresolve
        exact ⟨valued, hscopes, hsees.mono fun _ _ => trivial, h⟩
    obtain ⟨valued, hsame, hvalue, h⟩ := hvalued
    obtain ⟨between, hdeclare, hrest⟩ := ok_of_bind h
    obtain ⟨hscopes, hfresh, hfind⟩ := settles_of_declare hdeclare
    obtain ⟨hafter, hothers⟩ := ih hrest
    rw [hsame] at hscopes hfresh
    rw [hscopes] at hafter hothers
    exact ⟨hafter, ((hvalue.and hfind).and hothers).mono fun final h => ⟨hfresh, h.1.2, h.2⟩⟩

def Procedure.scopes (shared : Scopes) (procedure : Procedure) : Scopes :=
  (shared.enter.addAll procedure.params).addAll procedure.locals

def Process.scopes (shared : Scopes) (process : Process) : Scopes :=
  (shared.enter.add "self" process.selfDecl).addAll process.locals

/-- The names that all processes and procedures share. -/
def Algorithm.scopes (algorithm : Algorithm) : Scopes :=
  (Scopes.empty.addConstants algorithm.constants).addAll algorithm.globals

structure Procedure.Scoped (final : Definitions) (shared : Scopes) (procedure : Procedure) :
    Prop where
  params : shared.enter.Takes final .parameter procedure.params
  locals : (shared.enter.addAll procedure.params).Takes final .localVariable procedure.locals
  body : Statement.ListScoped final (procedure.scopes shared) procedure.body

structure Process.Scoped (final : Definitions) (shared : Scopes) (process : Process) : Prop where
  self : final.find? process.selfDecl = some ⟨process.selfDecl, "self", .processSelf, .unknown⟩
  locals : (shared.enter.add "self" process.selfDecl).Takes final .localVariable process.locals
  body : Statement.ListScoped final (process.scopes shared) process.body

section Bodies

variable {arities : Arities} {scopes : Scopes} {before after : Definitions}

theorem settles_of_resolveBody {state : Resolved} {body : List Statement}
    (h : resolveBody arities state body = .ok after) :
    state.definitions.Settles after
      (fun final => Statement.ListScoped final state.scopes body) := by
  obtain ⟨_, _, h⟩ := ok_of_bind h
  exact Statement.settles_of_listResolve body h

theorem Procedure.settles_of_resolve {procedure : Procedure}
    (h : procedure.resolve arities scopes before = .ok after) :
    before.Settles after (procedure.Scoped · scopes) := by
  obtain ⟨first, hparams, h⟩ := ok_of_bind h
  obtain ⟨second, hlocals, h⟩ := ok_of_bind h
  obtain ⟨hfirst, hparams⟩ := Resolved.settles_of_declareVariables _ hparams
  obtain ⟨hsecond, hlocals⟩ := Resolved.settles_of_declareVariables _ hlocals
  have hbody := settles_of_resolveBody h
  rw [hfirst] at hsecond hlocals
  rw [hsecond] at hbody
  exact (hparams.and (hlocals.and hbody)).mono fun final h => ⟨h.1, h.2.1, h.2.2⟩

theorem ProcessSelf.settles_of_resolve {value : ProcessSelf}
    (h : value.resolve scopes before = .ok after) : before.Settles after (fun _ => True) := by
  cases value with
  | single value => exact (Expression.settles_of_resolve value h).mono fun _ _ => trivial
  | range low high =>
    obtain ⟨between, hlow, hhigh⟩ := ok_of_bind h
    exact ((Expression.settles_of_resolve low hlow).and
      (Expression.settles_of_resolve high hhigh)).mono fun _ _ => trivial

theorem Process.settles_of_resolve {process : Process}
    (h : process.resolve arities scopes before = .ok after) :
    before.Settles after (process.Scoped · scopes) := by
  obtain ⟨first, hvalue, h⟩ := ok_of_bind h
  obtain ⟨second, hself, h⟩ := ok_of_bind h
  obtain ⟨third, hlocals, h⟩ := ok_of_bind h
  have hvalue := ProcessSelf.settles_of_resolve hvalue
  obtain ⟨hsecond, _, hself⟩ := Resolved.settles_of_declare hself
  obtain ⟨hthird, hlocals⟩ := Resolved.settles_of_declareVariables _ hlocals
  have hbody := settles_of_resolveBody h
  rw [hsecond] at hthird hlocals
  rw [hthird] at hbody
  exact (hvalue.and (hself.and (hlocals.and hbody))).mono
    fun final h => ⟨h.2.1, h.2.2.1, h.2.2.2⟩

theorem Procedure.settles_of_resolveList (procedures : List Procedure)
    (h : Procedure.resolveList arities scopes procedures before = .ok after) :
    before.Settles after
      (fun final => ∀ procedure ∈ procedures, procedure.Scoped final scopes) := by
  induction procedures generalizing before with
  | nil =>
    cases h
    exact .refl fun _ => List.forall_mem_nil _
  | cons procedure rest ih =>
    obtain ⟨between, hprocedure, hrest⟩ := ok_of_bind h
    exact ((Procedure.settles_of_resolve hprocedure).and (ih hrest)).mono
      fun final h => List.forall_mem_cons.2 h

theorem Process.settles_of_resolveList (processes : List Process)
    (h : Process.resolveList arities scopes processes before = .ok after) :
    before.Settles after (fun final => ∀ process ∈ processes, process.Scoped final scopes) := by
  induction processes generalizing before with
  | nil =>
    cases h
    exact .refl fun _ => List.forall_mem_nil _
  | cons process rest ih =>
    obtain ⟨between, hprocess, hrest⟩ := ok_of_bind h
    exact ((Process.settles_of_resolve hprocess).and (ih hrest)).mono
      fun final h => List.forall_mem_cons.2 h

end Bodies

/-- What resolution says of the names of an algorithm. -/
structure Algorithm.Scoped (final : Definitions) (algorithm : Algorithm) : Prop where
  constants : Scopes.empty.TakesConstants final algorithm.constants
  globals : (Scopes.empty.addConstants algorithm.constants).Takes final .global algorithm.globals
  procedures : ∀ procedure ∈ algorithm.procedures, procedure.Scoped final algorithm.scopes
  processes : ∀ process ∈ algorithm.processes, process.Scoped final algorithm.scopes

theorem Algorithm.scoped_of_resolve {algorithm : Algorithm} {definitions : Definitions}
    (h : algorithm.resolve = .ok definitions) : algorithm.Scoped definitions := by
  have hnodup := nodup_references h
  obtain ⟨_, _, h⟩ := ok_of_bind h
  obtain ⟨first, hconstants, h⟩ := ok_of_bind h
  obtain ⟨second, hglobals, h⟩ := ok_of_bind h
  obtain ⟨third, hprocedures, hprocesses⟩ := ok_of_bind h
  obtain ⟨hfirst, hconstants⟩ := Resolved.settles_of_declareConstants _ hconstants
  obtain ⟨hsecond, hglobals⟩ := Resolved.settles_of_declareVariables _ hglobals
  have hprocedures := Procedure.settles_of_resolveList _ hprocedures
  have hprocesses := Process.settles_of_resolveList _ hprocesses
  rw [hfirst] at hsecond hglobals
  rw [hsecond] at hprocedures hprocesses
  have hall := hconstants.and (hglobals.and (hprocedures.and hprocesses))
  obtain ⟨_, hconstants, hglobals, hprocedures, hprocesses⟩ :=
    hall definitions hnodup ⟨fun _ hmem => hmem, fun _ _ hfind => hfind⟩
  exact ⟨hconstants, hglobals, hprocedures, hprocesses⟩

namespace Algorithm

/-- The constants and these globals by their names. -/
def entries (algorithm : Algorithm) (globals : List VariableDecl) : List (String × Uid) :=
  algorithm.constants.map (fun decl => (decl.name, decl.uid)) ++
    globals.map fun decl => (decl.name, decl.uid)

theorem scopes_eq (algorithm : Algorithm) :
    algorithm.scopes = ⟨(algorithm.entries algorithm.globals).reverse, []⟩ := by
  rw [scopes, Scopes.addAll_eq, Scopes.addConstants_eq, entries, List.reverse_append]
  simp [Scopes.empty]

variable {algorithm : Algorithm} {final : Definitions}

/-- Constants and globals have different names. -/
theorem Scoped.nodup (h : algorithm.Scoped final) :
    ((algorithm.entries algorithm.globals).map (·.1)).Nodup := by
  rw [entries, List.map_append]
  refine List.nodup_append.2 ⟨h.constants.distinct.1, h.globals.distinct.1, ?_⟩
  intro name hname other hother
  obtain ⟨constant, hconstant, rfl⟩ := List.mem_map.1 hname
  obtain ⟨global, hglobal, rfl⟩ := List.mem_map.1 hother
  have hfresh := h.globals.distinct.2 global hglobal
  rw [Scopes.addConstants_eq] at hfresh
  exact hfresh constant (List.mem_append_left _ (List.mem_reverse.2 hconstant))

theorem Scoped.nodup_entries (h : algorithm.Scoped final) {globals : List VariableDecl}
    (hglobals : globals.Sublist algorithm.globals) :
    ((algorithm.entries globals).map (·.1)).Nodup :=
  (((List.Sublist.refl _).append (hglobals.map _)).map _).nodup h.nodup

theorem Scoped.nodup_globals (h : algorithm.Scoped final) :
    (algorithm.globals.map (·.name)).Nodup := by
  simpa [Function.comp_def] using h.globals.distinct.1

/-- What is found outside of processes and procedures is a constant or a global. -/
theorem mem_of_lookup {name : String} {declaration : Uid}
    (h : algorithm.scopes.lookup name = some declaration) :
    (name, declaration) ∈ algorithm.entries algorithm.globals := by
  rw [scopes_eq] at h
  obtain ⟨entry, hfind, rfl⟩ := Option.map_eq_some_iff.1 h
  obtain ⟨scope, hscope, hfind⟩ := List.exists_of_findSome?_eq_some hfind
  obtain rfl := List.mem_singleton.1 hscope
  have hname : entry.1 = name := by simpa using List.find?_some hfind
  have hmem := List.mem_reverse.1 (List.mem_of_find?_eq_some hfind)
  rw [← hname]
  exact hmem

end Algorithm

end PlusCalGo
