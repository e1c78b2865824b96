import PlusCalGo.Go.Expression
import PlusCalGo.Proofs.Locking.Traces
import PlusCalGo.Proofs.Resolution.Linking

/-!
# Texts of resolved expressions

After resolution every identifier refers to a declaration with a definition, in the statements of an
algorithm as well as in the initial values of its declarations. All these expressions have a text.
-/

namespace PlusCalGo

/-! ## Identifiers with a definition -/

namespace Definitions

/-- The identifier refers to a declaration that has a definition. -/
def Refers (definitions : Definitions) (identifier : Uid) : Prop :=
  ∃ declaration definition, (identifier, declaration) ∈ definitions.references ∧
    definitions.find? declaration = some definition

variable {before after : Definitions} {identifier : Uid}

theorem Grows.refers {uids : List Uid} {occurrences : List Occurrence}
    (h : before.Grows after uids occurrences) (hrefers : before.Refers identifier) :
    after.Refers identifier := by
  obtain ⟨declaration, definition, hmem, hfind⟩ := hrefers
  obtain ⟨added, hadded, _⟩ := h.references
  refine ⟨declaration, definition, ?_, h.keeps declaration definition hfind⟩
  rw [hadded]
  exact List.mem_append_right added hmem

theorem Links.refers {definitions : Definitions} {occurrence : Occurrence}
    (h : definitions.Links occurrence) : definitions.Refers occurrence.uid := by
  obtain ⟨declaration, hmem, definition, hfind, _⟩ := h
  exact ⟨declaration, definition, hmem, hfind⟩

theorem Refers.resolve {definitions : Definitions} (h : definitions.Refers identifier)
    (hnodup : (definitions.references.map (·.1)).Nodup) :
    ∃ definition, definitions.resolve identifier = .ok definition := by
  obtain ⟨declaration, definition, hmem, hfind⟩ := h
  refine ⟨definition, ?_⟩
  simp [Definitions.resolve, followReference, declarationOf?, find?_of_mem hnodup hmem,
    Definitions.definition, hfind, bind, Except.bind]

end Definitions

/-! ## Texts -/

namespace Expression

/-- All identifiers of the expression have a definition. -/
def Known (definitions : Definitions) (expression : Expression) : Prop :=
  ∀ identifier ∈ expression.identifiers, definitions.Refers identifier

theorem known_of_linked {naming : Naming} {expression : Expression} {before after : Definitions}
    {uids : List Uid} (h : Linked naming expression.named before after uids) :
    expression.Known after := by
  intro identifier hidentifier
  rw [identifiers_eq] at hidentifier
  obtain ⟨entry, hentry, rfl⟩ := List.mem_map.1 hidentifier
  exact ((h none false).links _ (List.mem_map_of_mem hentry)).refers

section Texts

variable {definitions : Definitions}

theorem rootResource_ok (expression : Expression)
    (h : ∀ identifier ∈ expression.identifiers,
      ∃ definition, definitions.resolve identifier = .ok definition) :
    ∃ resource, expression.rootResource definitions = .ok resource := by
  induction expression using rootResource.induct with
  | case1 uid name =>
    obtain ⟨definition, hdefinition⟩ := h uid (List.mem_singleton_self uid)
    exact ⟨definition.resource, by rw [rootResource, hdefinition]; rfl⟩
  | case2 uid function params ih =>
    exact ih fun identifier hidentifier => h identifier (List.mem_append_left _ hidentifier)
  | case3 expression hidentifier hindex =>
    exact ⟨.plain, rootResource.eq_3 definitions expression hidentifier hindex⟩

mutual

/-- An expression whose identifiers resolve has a text. -/
theorem toGo_ok (expression : Expression)
    (h : ∀ identifier ∈ expression.identifiers,
      ∃ definition, definitions.resolve identifier = .ok definition) :
    ∃ text, expression.toGo definitions = .ok text := by
  cases expression with
  | number uid value => exact ⟨_, rfl⟩
  | bool uid value => exact ⟨_, rfl⟩
  | string uid value => exact ⟨_, rfl⟩
  | identifier uid name => exact ⟨_, rfl⟩
  | index uid function params =>
    have hfunction := fun identifier hmem => h identifier (List.mem_append_left _ hmem)
    obtain ⟨resource, hresource⟩ := rootResource_ok function hfunction
    obtain ⟨text, htext⟩ := toGo_ok function hfunction
    obtain ⟨texts, htexts⟩ :=
      listToGo_ok params fun identifier hmem => h identifier (List.mem_append_right _ hmem)
    exact ⟨_, by rw [toGo, hresource, htext, htexts]; rfl⟩
  | binary uid op lhs rhs =>
    obtain ⟨left, hleft⟩ :=
      toGo_ok lhs fun identifier hmem => h identifier (List.mem_append_left _ hmem)
    obtain ⟨right, hright⟩ :=
      toGo_ok rhs fun identifier hmem => h identifier (List.mem_append_right _ hmem)
    exact ⟨_, by rw [toGo, hleft, hright]; rfl⟩
  | unary uid op operand =>
    obtain ⟨text, htext⟩ := toGo_ok operand h
    exact ⟨_, by rw [toGo, htext]; rfl⟩
  | tuple uid elements =>
    obtain ⟨texts, htexts⟩ := listToGo_ok elements h
    exact ⟨_, by rw [toGo, htexts]; rfl⟩
  | ifElse uid condition yes no =>
    have hfront := fun identifier hmem => h identifier (List.mem_append_left _ hmem)
    obtain ⟨first, hfirst⟩ :=
      toGo_ok condition fun identifier hmem => hfront identifier (List.mem_append_left _ hmem)
    obtain ⟨second, hsecond⟩ :=
      toGo_ok yes fun identifier hmem => hfront identifier (List.mem_append_right _ hmem)
    obtain ⟨third, hthird⟩ :=
      toGo_ok no fun identifier hmem => h identifier (List.mem_append_right _ hmem)
    exact ⟨_, by rw [toGo, hfirst, hsecond, hthird]; rfl⟩
  | apply uid name args =>
    obtain ⟨texts, htexts⟩ := listToGo_ok args h
    exact ⟨_, by rw [toGo, htexts]; rfl⟩

theorem listToGo_ok (expressions : List Expression)
    (h : ∀ identifier ∈ listIdentifiers expressions,
      ∃ definition, definitions.resolve identifier = .ok definition) :
    ∃ texts, listToGo definitions expressions = .ok texts := by
  cases expressions with
  | nil => exact ⟨_, rfl⟩
  | cons expression rest =>
    obtain ⟨text, htext⟩ :=
      toGo_ok expression fun identifier hmem => h identifier (List.mem_append_left _ hmem)
    obtain ⟨texts, htexts⟩ :=
      listToGo_ok rest fun identifier hmem => h identifier (List.mem_append_right _ hmem)
    exact ⟨_, by rw [listToGo, htext, htexts]; rfl⟩

end

end Texts

end Expression

/-! ## Initial values -/

def VariableDecl.values (decls : List VariableDecl) : List Expression := decls.filterMap (·.value)

def ConstantDecl.values (decls : List ConstantDecl) : List Expression := decls.filterMap (·.value)

def ProcessSelf.values : ProcessSelf → List Expression
  | single value => [value]
  | range low high => [low, high]

/-- The expressions that are evaluated when a process starts. -/
def Process.values (process : Process) : List Expression :=
  process.selfValue.values ++ VariableDecl.values process.locals

/-- The expressions of an algorithm outside of its statements. -/
def Algorithm.values (algorithm : Algorithm) : List Expression :=
  ConstantDecl.values algorithm.constants ++ VariableDecl.values algorithm.globals ++
    algorithm.procedures.flatMap (fun procedure => VariableDecl.values procedure.locals) ++
    algorithm.processes.flatMap Process.values

/-- All expressions of a list are known. -/
def Definitions.Knows (definitions : Definitions) (values : List Expression) : Prop :=
  ∀ value ∈ values, value.Known definitions

section Values

variable {before after : Definitions} {first second : List Expression}

theorem Definitions.Grows.knows {uids : List Uid} {occurrences : List Occurrence}
    (h : before.Grows after uids occurrences) (hknows : before.Knows first) : after.Knows first :=
  fun value hmem identifier hidentifier => h.refers (hknows value hmem identifier hidentifier)

theorem Definitions.knows_append :
    after.Knows (first ++ second) ↔ after.Knows first ∧ after.Knows second := by
  simp only [Knows, List.mem_append, or_imp, forall_and]

theorem Definitions.knows_nil : after.Knows [] := by
  simp [Knows]

namespace Resolved

variable {state after : Resolved} {naming : Naming}

theorem knows_of_resolve {value : Expression} {location : TextLocation}
    (hgives : state.scopes.Gives state.definitions naming)
    (h : state.resolve value location = .ok after) : after.definitions.Knows [value] := by
  obtain ⟨_, hlinked⟩ := linked_of_resolve hgives h
  intro other hother
  rw [List.mem_singleton.1 hother]
  exact Expression.known_of_linked hlinked

theorem knows_of_declareVariables {kind : ResourceKind → DefinitionKind} (decls : List VariableDecl)
    (hgives : state.scopes.Gives state.definitions naming)
    (h : state.declareVariables kind decls = .ok after) :
    after.definitions.Knows (VariableDecl.values decls) := by
  induction decls generalizing state naming with
  | nil => exact Definitions.knows_nil
  | cons decl rest ih =>
    obtain ⟨between, hdecl, hrest⟩ := ok_of_bind h
    obtain ⟨_, hbetween⟩ := grows_of_declareVariable none hgives hdecl
    obtain ⟨hgrows, _⟩ := grows_of_declareVariables rest hbetween hrest
    have hothers := ih hbetween hrest
    cases hvalue : decl.value with
    | none => simpa [VariableDecl.values, hvalue] using hothers
    | some value =>
      rw [declareVariable, hvalue] at hdecl
      obtain ⟨valued, hresolve, hdeclare⟩ := ok_of_bind hdecl
      have hknows := knows_of_resolve hgives hresolve
      obtain ⟨hscopes, hlinked⟩ := linked_of_resolve hgives hresolve
      have hvalued := hgives.mono (hlinked none false)
      rw [← hscopes] at hvalued
      obtain ⟨hdeclared, _⟩ := grows_of_declare hvalued hdeclare
      have hall := Definitions.knows_append.2 ⟨hgrows.knows (hdeclared.knows hknows), hothers⟩
      simpa [VariableDecl.values, hvalue] using hall

theorem knows_of_declareConstants (decls : List ConstantDecl)
    (hgives : state.scopes.Gives state.definitions naming)
    (h : state.declareConstants decls = .ok after) :
    after.definitions.Knows (ConstantDecl.values decls) := by
  induction decls generalizing state naming with
  | nil => exact Definitions.knows_nil
  | cons decl rest ih =>
    unfold declareConstants at h
    cases hvalue : decl.value with
    | none =>
      rw [hvalue] at h
      change (state.declare ⟨decl.uid, decl.name, .constant, .unknown⟩ >>=
        fun between => between.declareConstants rest) = .ok after at h
      obtain ⟨between, hdeclare, hrest⟩ := ok_of_bind h
      obtain ⟨_, hbetween⟩ := grows_of_declare hgives hdeclare
      simpa [ConstantDecl.values, hvalue] using ih hbetween hrest
    | some value =>
      rw [hvalue] at h
      obtain ⟨valued, hresolve, h⟩ := ok_of_bind h
      obtain ⟨between, hdeclare, hrest⟩ := ok_of_bind h
      have hknows := knows_of_resolve hgives hresolve
      obtain ⟨hscopes, hlinked⟩ := linked_of_resolve hgives hresolve
      have hvalued := hgives.mono (hlinked none false)
      rw [← hscopes] at hvalued
      obtain ⟨hdeclared, hbetween⟩ := grows_of_declare hvalued hdeclare
      obtain ⟨hgrows, _⟩ := grows_of_declareConstants rest hbetween hrest
      have hall := Definitions.knows_append.2
        ⟨hgrows.knows (hdeclared.knows hknows), ih hbetween hrest⟩
      simpa [ConstantDecl.values, hvalue] using hall

end Resolved

end Values

section Bodies

variable {arities : Arities} {scopes : Scopes} {naming : Naming} {before after : Definitions}

theorem Procedure.knows_of_resolve {procedure : Procedure} (hgives : scopes.Gives before naming)
    (h : procedure.resolve arities scopes before = .ok after) :
    after.Knows (VariableDecl.values procedure.locals) := by
  obtain ⟨first, hparams, h⟩ := ok_of_bind h
  obtain ⟨second, hlocals, h⟩ := ok_of_bind h
  obtain ⟨_, hfirst⟩ := Resolved.grows_of_declareVariables _ hgives.enter hparams
  obtain ⟨_, hsecond⟩ := Resolved.grows_of_declareVariables _ hfirst hlocals
  obtain ⟨_, hbody⟩ := grows_of_resolveBody hsecond h
  exact hbody.knows (Resolved.knows_of_declareVariables _ hfirst hlocals)

theorem ProcessSelf.knows_of_resolve {value : ProcessSelf} (hgives : scopes.Gives before naming)
    (h : value.resolve scopes before = .ok after) : after.Knows value.values := by
  cases value with
  | single value =>
    intro other hother
    rw [List.mem_singleton.1 hother]
    exact Expression.known_of_linked (Expression.linked_of_resolve value hgives h)
  | range low high =>
    obtain ⟨between, hlow, hhigh⟩ := ok_of_bind h
    have hlow := Expression.linked_of_resolve low hgives hlow
    have hhigh := Expression.linked_of_resolve high (hgives.mono (hlow none false)) hhigh
    intro other hother
    rcases List.mem_pair.1 hother with rfl | rfl
    · intro identifier hidentifier
      exact (hhigh none false).refers (Expression.known_of_linked hlow identifier hidentifier)
    · exact Expression.known_of_linked hhigh

theorem Process.knows_of_resolve {process : Process} (hgives : scopes.Gives before naming)
    (h : process.resolve arities scopes before = .ok after) : after.Knows process.values := by
  obtain ⟨first, hvalue, h⟩ := ok_of_bind h
  obtain ⟨second, hself, h⟩ := ok_of_bind h
  obtain ⟨third, hlocals, h⟩ := ok_of_bind h
  have hknows := ProcessSelf.knows_of_resolve hgives hvalue
  have hgives := hgives.mono (ProcessSelf.grows_of_resolve hgives hvalue)
  obtain ⟨hself, hsecond⟩ := Resolved.grows_of_declare hgives.enter hself
  obtain ⟨hgrows, hthird⟩ := Resolved.grows_of_declareVariables _ hsecond hlocals
  obtain ⟨_, hbody⟩ := grows_of_resolveBody hthird h
  exact Definitions.knows_append.2 ⟨hbody.knows (hgrows.knows (hself.knows hknows)),
    hbody.knows (Resolved.knows_of_declareVariables _ hsecond hlocals)⟩

/-- What is known after one resolution stays known after those that follow. -/
private theorem knows_of_sequence {α : Type}
    (one : α → Definitions → Except Diagnostic Definitions)
    (all : List α → Definitions → Except Diagnostic Definitions) {values : α → List Expression}
    (hcons : ∀ item rest definitions,
      all (item :: rest) definitions = one item definitions >>= all rest)
    (hone : ∀ item before after, scopes.Gives before naming → one item before = .ok after →
      after.Knows (values item) ∧ ∃ uids occurrences, before.Grows after uids occurrences)
    (hall : ∀ items before after, scopes.Gives before naming → all items before = .ok after →
      ∃ uids occurrences, before.Grows after uids occurrences)
    (items : List α) (hgives : scopes.Gives before naming) (h : all items before = .ok after) :
    after.Knows (items.flatMap values) := by
  induction items generalizing before with
  | nil => exact Definitions.knows_nil
  | cons item rest ih =>
    rw [hcons] at h
    obtain ⟨between, hitem, hrest⟩ := ok_of_bind h
    obtain ⟨hknows, _, _, hgrows⟩ := hone item before between hgives hitem
    have hbetween := hgives.mono hgrows
    obtain ⟨_, _, hothers⟩ := hall rest between after hbetween hrest
    exact Definitions.knows_append.2 ⟨hothers.knows hknows, ih hbetween hrest⟩

theorem Procedure.knows_of_resolveList (procedures : List Procedure)
    (hgives : scopes.Gives before naming)
    (h : Procedure.resolveList arities scopes procedures before = .ok after) :
    after.Knows (procedures.flatMap fun procedure => VariableDecl.values procedure.locals) :=
  knows_of_sequence (Procedure.resolve arities scopes) (Procedure.resolveList arities scopes)
    (fun _ _ _ => rfl)
    (fun _ _ _ hgives h => ⟨Procedure.knows_of_resolve hgives h, _, _,
      (Procedure.grows_of_resolve hgives h).2⟩)
    (fun _ _ _ hgives h => ⟨_, _, (Procedure.grows_of_resolveList _ hgives h).2⟩)
    procedures hgives h

theorem Process.knows_of_resolveList (processes : List Process)
    (hgives : scopes.Gives before naming)
    (h : Process.resolveList arities scopes processes before = .ok after) :
    after.Knows (processes.flatMap Process.values) :=
  knows_of_sequence (Process.resolve arities scopes) (Process.resolveList arities scopes)
    (fun _ _ _ => rfl)
    (fun _ _ _ hgives h => ⟨Process.knows_of_resolve hgives h, _, _,
      (Process.grows_of_resolve hgives h).2⟩)
    (fun _ _ _ hgives h => ⟨_, _, (Process.grows_of_resolveList _ hgives h).2⟩)
    processes hgives h

end Bodies

/-! ## Algorithms -/

namespace Algorithm

variable {algorithm : Algorithm} {definitions : Definitions}

theorem knows_of_resolve (h : algorithm.resolve = .ok definitions) :
    definitions.Knows algorithm.values := by
  obtain ⟨_, _, h⟩ := ok_of_bind h
  obtain ⟨first, hconstants, h⟩ := ok_of_bind h
  obtain ⟨second, hglobals, h⟩ := ok_of_bind h
  obtain ⟨third, hprocedures, hprocesses⟩ := ok_of_bind h
  have hstart : Scopes.empty.Gives Definitions.empty [] := .nil
  obtain ⟨_, hfirst⟩ := Resolved.grows_of_declareConstants _ hstart hconstants
  obtain ⟨hglobalsGrow, hsecond⟩ := Resolved.grows_of_declareVariables _ hfirst hglobals
  obtain ⟨_, hproceduresGrow⟩ := Procedure.grows_of_resolveList _ hsecond hprocedures
  have hthird := hsecond.mono hproceduresGrow
  obtain ⟨_, hprocessesGrow⟩ := Process.grows_of_resolveList _ hthird hprocesses
  have hconstantsKnown :=
    hglobalsGrow.knows (Resolved.knows_of_declareConstants _ hstart hconstants)
  have hglobalsKnown := Resolved.knows_of_declareVariables _ hfirst hglobals
  have hdeclared :=
    hproceduresGrow.knows (Definitions.knows_append.2 ⟨hconstantsKnown, hglobalsKnown⟩)
  have hlocals := Procedure.knows_of_resolveList _ hsecond hprocedures
  have hfront := hprocessesGrow.knows (Definitions.knows_append.2 ⟨hdeclared, hlocals⟩)
  exact Definitions.knows_append.2 ⟨hfront, Process.knows_of_resolveList _ hthird hprocesses⟩

/-- Every identifier in a statement resolves. -/
theorem resolve_of_occurrence (h : algorithm.resolve = .ok definitions) :
    ∀ occurrence ∈ algorithm.occurrences,
      ∃ definition, definitions.resolve occurrence.uid = .ok definition := by
  intro occurrence hmem
  obtain ⟨_, _, hgrows⟩ := grows_of_resolve h
  exact (hgrows.links occurrence hmem).refers.resolve (nodup_references h)

/-- Every expression outside of the statements has a text. -/
theorem toGo_of_values (h : algorithm.resolve = .ok definitions) :
    ∀ value ∈ algorithm.values, ∃ text, value.toGo definitions = .ok text := by
  intro value hvalue
  apply Expression.toGo_ok
  intro identifier hidentifier
  exact (knows_of_resolve h value hvalue identifier hidentifier).resolve (nodup_references h)

end Algorithm

end PlusCalGo
