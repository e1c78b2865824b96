import PlusCalGo.Proofs.Resolution.Scoping

/-!
# Links of an algorithm

After resolution every identifier in a statement refers to a declaration of what its name stands
for. No identifier refers to two declarations, since no two nodes share a uid.
-/

namespace PlusCalGo

/-! ## Declarations -/

namespace Resolved

variable {state after : Resolved} {naming : Naming}

theorem grows_of_declare {definition : Definition}
    (hgives : state.scopes.Gives state.definitions naming)
    (h : state.declare definition = .ok after) :
    state.definitions.Grows after.definitions [] [] ∧ after.scopes.Gives after.definitions
      ((definition.name, if definition.kind.isGlobal then some definition.uid else none) ::
        naming) := by
  obtain ⟨⟨scopes, definitions⟩, hdeclare, h⟩ := ok_of_bind h
  cases h
  exact hgives.declare hdeclare

theorem linked_of_resolve {value : Expression} {location : TextLocation}
    (hgives : state.scopes.Gives state.definitions naming)
    (h : state.resolve value location = .ok after) :
    after.scopes = state.scopes ∧
      Expression.Linked naming value.named state.definitions after.definitions value.uids := by
  obtain ⟨definitions, hresolve, h⟩ := ok_of_bind h
  cases h
  exact ⟨rfl, Expression.linked_of_resolve value hgives hresolve⟩

/-- A variable, whose initial value is read under a label. -/
theorem grows_of_declareVariable (label? : Option Uid) {kind : ResourceKind → DefinitionKind}
    {decl : VariableDecl} (hgives : state.scopes.Gives state.definitions naming)
    (h : state.declareVariable kind decl = .ok after) :
    state.definitions.Grows after.definitions decl.uids
        ((decl.value.map (Expression.reads label? naming)).getD []) ∧
      after.scopes.Gives after.definitions
        ((decl.name, if (kind decl.resource).isGlobal then some decl.uid else none) :: naming) := by
  unfold declareVariable at h
  cases hdecl : decl.value with
  | none =>
    rw [hdecl] at h
    obtain ⟨hgrows, hgives⟩ := grows_of_declare hgives h
    exact ⟨hgrows.weaken (List.nil_sublist _) (by simp), hgives⟩
  | some value =>
    rw [hdecl] at h
    obtain ⟨valued, hvalue, hdeclare⟩ := ok_of_bind h
    obtain ⟨hscopes, hlinked⟩ := linked_of_resolve hgives hvalue
    have hvalueGrows := hlinked label? false
    have hgivesValue := hgives.mono hvalueGrows
    rw [← hscopes] at hgivesValue
    obtain ⟨hgrows, hgives⟩ := grows_of_declare hgivesValue hdeclare
    refine ⟨?_, hgives⟩
    have hall := (hvalueGrows.append hgrows).cons decl.uid
    rw [List.append_nil, List.append_nil] at hall
    rw [VariableDecl.uids, hdecl]
    exact hall

theorem grows_of_declareVariables {kind : ResourceKind → DefinitionKind} (decls : List VariableDecl)
    (hgives : state.scopes.Gives state.definitions naming)
    (h : state.declareVariables kind decls = .ok after) :
    state.definitions.Grows after.definitions (decls.flatMap VariableDecl.uids) [] ∧
      after.scopes.Gives after.definitions (decls.foldl (fun naming decl =>
        (decl.name, if (kind decl.resource).isGlobal then some decl.uid else none) :: naming)
        naming) := by
  induction decls generalizing state naming with
  | nil =>
    cases h
    exact ⟨.refl _, hgives⟩
  | cons decl rest ih =>
    obtain ⟨between, hdecl, hrest⟩ := ok_of_bind h
    obtain ⟨hfirst, hbetween⟩ := grows_of_declareVariable none hgives hdecl
    obtain ⟨hsecond, hafter⟩ := ih hbetween hrest
    exact ⟨(hfirst.append hsecond).weaken (List.Sublist.refl _) (by simp), hafter⟩

/-- The bindings of a `with` under a label. -/
theorem grows_of_declareBindings (label? : Option Uid) (bindings : List VariableDecl)
    (hgives : state.scopes.Gives state.definitions naming)
    (h : state.declareBindings bindings = .ok after) :
    state.definitions.Grows after.definitions (bindings.flatMap VariableDecl.uids)
        (VariableDecl.listReads label? naming bindings) ∧
      after.scopes.Gives after.definitions (naming.hideAll bindings) := by
  induction bindings generalizing state naming with
  | nil =>
    cases h
    exact ⟨.refl _, hgives⟩
  | cons decl rest ih =>
    simp only [declareBindings] at h
    split at h
    · simp [bind, Except.bind, throw, throwThe, MonadExceptOf.throw] at h
    obtain ⟨between, hdecl, hrest⟩ := ok_of_bind h
    obtain ⟨hfirst, hbetween⟩ := grows_of_declareVariable label? hgives hdecl
    obtain ⟨hsecond, hafter⟩ := ih hbetween hrest
    exact ⟨hfirst.append hsecond, hafter⟩

theorem grows_of_declareConstants (decls : List ConstantDecl)
    (hgives : state.scopes.Gives state.definitions naming)
    (h : state.declareConstants decls = .ok after) :
    state.definitions.Grows after.definitions (decls.flatMap ConstantDecl.uids) [] ∧
      after.scopes.Gives after.definitions
        (decls.foldl (fun naming decl => naming.hide decl.name) naming) := by
  induction decls generalizing state naming with
  | nil =>
    cases h
    exact ⟨.refl _, hgives⟩
  | cons decl rest ih =>
    have hvalued : ∃ valued : Resolved, state.definitions.Grows valued.definitions decl.uids [] ∧
        valued.scopes.Gives valued.definitions naming ∧
        (do (← valued.declare ⟨decl.uid, decl.name, .constant, .unknown⟩).declareConstants rest) =
          .ok after := by
      unfold declareConstants at h
      cases hdecl : decl.value with
      | none =>
        rw [hdecl] at h
        exact ⟨state, (Definitions.Grows.refl _).weaken (List.nil_sublist _) (by simp), hgives, h⟩
      | some value =>
        rw [hdecl] at h
        obtain ⟨valued, hvalue, h⟩ := ok_of_bind h
        obtain ⟨hscopes, hlinked⟩ := linked_of_resolve hgives hvalue
        have hgrows := hlinked none false
        refine ⟨valued, ?_, by rw [hscopes]; exact hgives.mono hgrows, h⟩
        rw [ConstantDecl.uids, hdecl]
        exact (hgrows.cons decl.uid).weaken (List.Sublist.refl _) (by simp)
    obtain ⟨valued, hvalue, hgivesValue, h⟩ := hvalued
    obtain ⟨between, hdeclare, hrest⟩ := ok_of_bind h
    obtain ⟨hdeclared, hbetween⟩ := grows_of_declare hgivesValue hdeclare
    obtain ⟨hsecond, hafter⟩ := ih hbetween hrest
    have hall := (hvalue.append hdeclared).append hsecond
    rw [List.append_nil] at hall
    exact ⟨hall, hafter⟩

end Resolved

/-! ## Statements -/

section Statements

variable {arities : Arities} {scopes : Scopes} {naming : Naming} {before after : Definitions}

theorem grows_of_pairs (label? : Option Uid) {location : TextLocation} (pairs : List AssignmentPair)
    (hgives : scopes.Gives before naming)
    (h : AssignmentPair.resolveList scopes location pairs before = .ok after) :
    before.Grows after (pairs.flatMap AssignmentPair.uids) (pairs.flatMap fun pair =>
      pair.lhs.targets label? naming ++ pair.rhs.reads label? naming) := by
  induction pairs generalizing before with
  | nil =>
    cases h
    exact .refl _
  | cons pair rest ih =>
    simp only [AssignmentPair.resolveList] at h
    split at h
    · simp [bind, Except.bind, throw, throwThe, MonadExceptOf.throw] at h
    obtain ⟨first, hlhs, h⟩ := ok_of_bind h
    obtain ⟨second, hrhs, hrest⟩ := ok_of_bind h
    have hlhs := (Expression.linked_of_resolve pair.lhs hgives hlhs).targets label?
    have hgives := hgives.mono hlhs
    have hrhs := Expression.linked_of_resolve pair.rhs hgives hrhs label? false
    have hrest := ih (hgives.mono hrhs) hrest
    exact (hlhs.append hrhs).append hrest

theorem grows_of_arguments (label? : Option Uid) {location : TextLocation}
    (arguments : List Expression) (hgives : scopes.Gives before naming)
    (h : Expression.listResolve scopes location arguments before = .ok after) :
    before.Grows after (arguments.flatMap Expression.uids)
      (arguments.flatMap (Expression.reads label? naming)) := by
  rw [← Expression.listReads_eq, ← Expression.listUids_eq]
  exact Expression.linked_of_listResolve arguments hgives h label? false

namespace Statement

mutual

/-- Resolving a statement links its identifiers. -/
theorem grows_of_resolve (label? : Option Uid) (statement : Statement) {scopes : Scopes}
    {naming : Naming} {before after : Definitions} (hgives : scopes.Gives before naming)
    (h : statement.resolve arities scopes before = .ok after) :
    before.Grows after statement.uids (statement.occurrences label? naming) := by
  cases statement with
  | labeled mark label body =>
    exact ((grows_of_listResolve (some label.uid) body hgives h).cons label.uid).cons mark.uid
  | whileDo mark condition body =>
    obtain ⟨between, hcondition, hbody⟩ := ok_of_bind h
    have hcondition := Expression.linked_of_resolve condition hgives hcondition label? false
    have hbody := grows_of_listResolve label? body (hgives.mono hcondition) hbody
    exact (hcondition.append hbody).cons mark.uid
  | ifElse mark condition yes no =>
    obtain ⟨first, hcondition, h⟩ := ok_of_bind h
    obtain ⟨second, hyes, hno⟩ := ok_of_bind h
    have hcondition := Expression.linked_of_resolve condition hgives hcondition label? false
    have hgives := hgives.mono hcondition
    have hyes := grows_of_listResolve label? yes hgives hyes
    have hno := grows_of_listResolve label? no (hgives.mono hyes) hno
    have hall := (hcondition.append (hyes.append hno)).cons mark.uid
    rw [← List.append_assoc] at hall
    exact hall
  | either mark cases =>
    simp only [resolve] at h
    split at h
    · simp at h
    exact (grows_of_casesResolve label? cases hgives h).cons mark.uid
  | assign mark pairs => exact (grows_of_pairs label? pairs hgives h).cons mark.uid
  | leave mark =>
    cases h
    exact (Definitions.Grows.refl _).cons mark.uid
  | skip mark =>
    cases h
    exact (Definitions.Grows.refl _).cons mark.uid
  | call mark target arguments =>
    simp only [resolve] at h
    split at h
    · simp at h
    split at h
    · simp at h
    exact (grows_of_arguments label? arguments hgives h).cons mark.uid
  | macroCall mark target arguments => simp [resolve] at h
  | withDo mark bindings body =>
    obtain ⟨inside, hbindings, hbody⟩ := ok_of_bind h
    obtain ⟨hbindings, hinside⟩ :=
      Resolved.grows_of_declareBindings label? bindings hgives.enter hbindings
    have hbody := grows_of_listResolve label? body hinside hbody
    exact (hbindings.append hbody).cons mark.uid
  | print mark value =>
    exact (Expression.linked_of_resolve value hgives h label? false).cons mark.uid
  | assert mark value =>
    exact (Expression.linked_of_resolve value hgives h label? false).cons mark.uid
  | await mark value =>
    exact (Expression.linked_of_resolve value hgives h label? false).cons mark.uid
  | goto mark target =>
    cases h
    exact (Definitions.Grows.refl _).cons mark.uid

theorem grows_of_listResolve (label? : Option Uid) (statements : List Statement) {scopes : Scopes}
    {naming : Naming} {before after : Definitions} (hgives : scopes.Gives before naming)
    (h : listResolve arities scopes statements before = .ok after) :
    before.Grows after (listUids statements) (listOccurrences label? naming statements) := by
  cases statements with
  | nil =>
    cases h
    exact .refl _
  | cons statement rest =>
    obtain ⟨between, hstatement, hrest⟩ := ok_of_bind h
    have hstatement := grows_of_resolve label? statement hgives hstatement
    exact hstatement.append (grows_of_listResolve label? rest (hgives.mono hstatement) hrest)

theorem grows_of_casesResolve (label? : Option Uid) (cases : List (List Statement))
    {scopes : Scopes} {naming : Naming} {before after : Definitions}
    (hgives : scopes.Gives before naming)
    (h : casesResolve arities scopes cases before = .ok after) :
    before.Grows after (casesUids cases) (casesOccurrences label? naming cases) := by
  cases cases with
  | nil =>
    cases h
    exact .refl _
  | cons body rest =>
    obtain ⟨between, hbody, hrest⟩ := ok_of_bind h
    have hbody := grows_of_listResolve label? body hgives hbody
    exact hbody.append (grows_of_casesResolve label? rest (hgives.mono hbody) hrest)

end

end Statement

end Statements

/-! ## Bodies -/

section Bodies

variable {arities : Arities} {scopes : Scopes} {naming : Naming} {before after : Definitions}

theorem grows_of_resolveBody {state : Resolved} {body : List Statement}
    (hgives : state.scopes.Gives state.definitions naming)
    (h : resolveBody arities state body = .ok after) :
    Statement.checkLabels body = .ok () ∧ state.definitions.Grows after (Statement.listUids body)
      (Statement.listOccurrences none naming body) := by
  obtain ⟨_, hlabels, h⟩ := ok_of_bind h
  exact ⟨hlabels, Statement.grows_of_listResolve none body hgives h⟩

theorem Procedure.grows_of_resolve {procedure : Procedure} (hgives : scopes.Gives before naming)
    (h : procedure.resolve arities scopes before = .ok after) :
    Statement.checkLabels procedure.body = .ok () ∧ before.Grows after procedure.uids
      (Statement.listOccurrences none (procedure.naming naming) procedure.body) := by
  obtain ⟨first, hparams, h⟩ := ok_of_bind h
  obtain ⟨second, hlocals, h⟩ := ok_of_bind h
  obtain ⟨hparams, hgives⟩ := Resolved.grows_of_declareVariables _ hgives.enter hparams
  obtain ⟨hlocals, hgives⟩ := Resolved.grows_of_declareVariables _ hgives hlocals
  obtain ⟨hlabels, hbody⟩ := grows_of_resolveBody hgives h
  exact ⟨hlabels, ((hparams.append hlocals).append hbody).cons procedure.uid⟩

theorem ProcessSelf.grows_of_resolve {value : ProcessSelf} (hgives : scopes.Gives before naming)
    (h : value.resolve scopes before = .ok after) : before.Grows after value.uids [] := by
  cases value with
  | single value =>
    have hvalue := Expression.linked_of_resolve value hgives h none false
    exact hvalue.weaken (List.Sublist.refl _) (by simp)
  | range low high =>
    obtain ⟨between, hlow, hhigh⟩ := ok_of_bind h
    have hlow := Expression.linked_of_resolve low hgives hlow none false
    have hhigh := Expression.linked_of_resolve high (hgives.mono hlow) hhigh none false
    exact (hlow.append hhigh).weaken (List.Sublist.refl _) (by simp)

theorem Process.grows_of_resolve {process : Process} (hgives : scopes.Gives before naming)
    (h : process.resolve arities scopes before = .ok after) :
    Statement.checkLabels process.body = .ok () ∧ before.Grows after process.uids
      (Statement.listOccurrences none (process.naming naming) process.body) := by
  obtain ⟨first, hvalue, h⟩ := ok_of_bind h
  obtain ⟨second, hself, h⟩ := ok_of_bind h
  obtain ⟨third, hlocals, h⟩ := ok_of_bind h
  have hvalue := ProcessSelf.grows_of_resolve hgives hvalue
  obtain ⟨hself, hgives⟩ := Resolved.grows_of_declare (hgives.mono hvalue).enter hself
  obtain ⟨hlocals, hgives⟩ := Resolved.grows_of_declareVariables _ hgives hlocals
  obtain ⟨hlabels, hbody⟩ := grows_of_resolveBody hgives h
  have hall := ((hvalue.append hself).append hlocals).append hbody
  rw [List.append_nil] at hall
  exact ⟨hlabels, (hall.cons process.selfDecl).cons process.uid⟩

/-- One resolution after the other, each under the same scopes. -/
private theorem grows_of_sequence {α : Type} {one : α → Definitions → Except Diagnostic Definitions}
    {all : List α → Definitions → Except Diagnostic Definitions} {property : α → Prop}
    {uids : α → List Uid} {occurrences : α → List Occurrence}
    (hnil : ∀ definitions, all [] definitions = .ok definitions)
    (hcons : ∀ item rest definitions,
      all (item :: rest) definitions = one item definitions >>= all rest)
    (hone : ∀ item before after, scopes.Gives before naming → one item before = .ok after →
      property item ∧ before.Grows after (uids item) (occurrences item))
    (items : List α) (hgives : scopes.Gives before naming) (h : all items before = .ok after) :
    (∀ item ∈ items, property item) ∧
      before.Grows after (items.flatMap uids) (items.flatMap occurrences) := by
  induction items generalizing before with
  | nil =>
    rw [hnil] at h
    cases h
    exact ⟨by simp, .refl _⟩
  | cons item rest ih =>
    rw [hcons] at h
    obtain ⟨between, hitem, hrest⟩ := ok_of_bind h
    obtain ⟨hproperty, hitem⟩ := hone item before between hgives hitem
    obtain ⟨hothers, hrest⟩ := ih (hgives.mono hitem) hrest
    exact ⟨List.forall_mem_cons.2 ⟨hproperty, hothers⟩, hitem.append hrest⟩

theorem Procedure.grows_of_resolveList (procedures : List Procedure)
    (hgives : scopes.Gives before naming)
    (h : Procedure.resolveList arities scopes procedures before = .ok after) :
    (∀ procedure ∈ procedures, Statement.checkLabels procedure.body = .ok ()) ∧
      before.Grows after (procedures.flatMap Procedure.uids) (procedures.flatMap fun procedure =>
        Statement.listOccurrences none (procedure.naming naming) procedure.body) :=
  grows_of_sequence (fun _ => rfl) (fun _ _ _ => rfl)
    (fun _ _ _ hgives h => Procedure.grows_of_resolve hgives h) procedures hgives h

theorem Process.grows_of_resolveList (processes : List Process)
    (hgives : scopes.Gives before naming)
    (h : Process.resolveList arities scopes processes before = .ok after) :
    (∀ process ∈ processes, Statement.checkLabels process.body = .ok ()) ∧
      before.Grows after (processes.flatMap Process.uids) (processes.flatMap fun process =>
        Statement.listOccurrences none (process.naming naming) process.body) :=
  grows_of_sequence (fun _ => rfl) (fun _ _ _ => rfl)
    (fun _ _ _ hgives h => Process.grows_of_resolve hgives h) processes hgives h

end Bodies

/-! ## Algorithms -/

theorem Uid.nodup_of_firstRepeated? {seen uids : List Uid} (h : firstRepeated? seen uids = none) :
    uids.Nodup ∧ ∀ uid ∈ uids, uid ∉ seen := by
  induction uids generalizing seen with
  | nil => simp
  | cons uid rest ih =>
    simp only [firstRepeated?] at h
    split at h
    · simp at h
    rename_i hfresh
    obtain ⟨hnodup, hrest⟩ := ih h
    have huid : uid ∉ rest := fun hmem => hrest uid hmem List.mem_cons_self
    refine ⟨List.nodup_cons.2 ⟨huid, hnodup⟩, ?_⟩
    intro other hother
    rcases List.mem_cons.1 hother with rfl | hother
    · exact hfresh
    · exact fun hmem => hrest other hother (List.mem_cons_of_mem uid hmem)

namespace Algorithm

variable {algorithm : Algorithm} {definitions : Definitions}

theorem nodup_of_resolve (h : algorithm.resolve = .ok definitions) : algorithm.uids.Nodup := by
  obtain ⟨_, huids, _⟩ := ok_of_bind h
  unfold checkUids at huids
  split at huids
  · simp at huids
  · rename_i hrepeated
    exact (Uid.nodup_of_firstRepeated? hrepeated).1

theorem grows_of_resolve (h : algorithm.resolve = .ok definitions) :
    (∀ procedure ∈ algorithm.procedures, Statement.checkLabels procedure.body = .ok ()) ∧
      (∀ process ∈ algorithm.processes, Statement.checkLabels process.body = .ok ()) ∧
      Definitions.empty.Grows definitions algorithm.uids algorithm.occurrences := by
  obtain ⟨_, _, h⟩ := ok_of_bind h
  obtain ⟨first, hconstants, h⟩ := ok_of_bind h
  obtain ⟨second, hglobals, h⟩ := ok_of_bind h
  obtain ⟨third, hprocedures, hprocesses⟩ := ok_of_bind h
  have hstart : Scopes.empty.Gives Definitions.empty [] := .nil
  obtain ⟨hconstants, hgives⟩ := Resolved.grows_of_declareConstants _ hstart hconstants
  obtain ⟨hglobals, hgives⟩ := Resolved.grows_of_declareVariables _ hgives hglobals
  obtain ⟨hlabels, hprocedures⟩ := Procedure.grows_of_resolveList _ hgives hprocedures
  obtain ⟨hothers, hprocesses⟩ :=
    Process.grows_of_resolveList _ (hgives.mono hprocedures) hprocesses
  exact ⟨hlabels, hothers, ((hconstants.append hglobals).append hprocedures).append hprocesses⟩

end Algorithm

namespace Definitions

variable {definitions : Definitions}

/-- The global variable that an identifier refers to. -/
def globalOf? (definitions : Definitions) (identifier : Uid) : Option Uid :=
  (definitions.declarationOf? identifier).filter definitions.isGlobal

theorem find?_of_mem {references : List (Uid × Uid)} {identifier declaration : Uid}
    (hnodup : (references.map (·.1)).Nodup) (hmem : (identifier, declaration) ∈ references) :
    references.find? (·.1 = identifier) = some (identifier, declaration) := by
  induction references with
  | nil => simp at hmem
  | cons reference rest ih =>
    obtain ⟨hfirst, hnodup⟩ := List.nodup_cons.1 hnodup
    rcases List.mem_cons.1 hmem with rfl | hmem
    · simp
    · have hne : reference.1 ≠ identifier := by
        rintro rfl
        exact hfirst (List.mem_map.2 ⟨_, hmem, rfl⟩)
      rw [List.find?_cons_of_neg (by simpa using hne)]
      exact ih hnodup hmem

theorem Links.globalOf? {occurrence : Occurrence} (h : definitions.Links occurrence)
    (hnodup : (definitions.references.map (·.1)).Nodup) :
    definitions.globalOf? occurrence.uid = occurrence.global? := by
  obtain ⟨declaration, hmem, definition, hfind, hmeaning⟩ := h
  rw [Definitions.globalOf?, declarationOf?, find?_of_mem hnodup hmem, hmeaning]
  simp [Option.filter, isGlobal, hfind]

end Definitions

namespace Algorithm

variable {algorithm : Algorithm} {definitions : Definitions}

/-- No identifier has two references. -/
theorem nodup_references (h : algorithm.resolve = .ok definitions) :
    (definitions.references.map (·.1)).Nodup := by
  obtain ⟨_, _, hgrows⟩ := grows_of_resolve h
  obtain ⟨added, hadded, hsublist⟩ := hgrows.references
  have hall : definitions.references = added := by rw [hadded, Definitions.empty, List.append_nil]
  rw [hall]
  have hnodup := hsublist.nodup (nodup_of_resolve h)
  exact (List.reverse_perm _).nodup_iff.1 hnodup

/-- Identifiers refer to the global variables their names stand for. -/
theorem globalOf?_of_resolve (h : algorithm.resolve = .ok definitions) :
    ∀ occurrence ∈ algorithm.occurrences,
      definitions.globalOf? occurrence.uid = occurrence.global? := by
  intro occurrence hmem
  obtain ⟨_, _, hgrows⟩ := grows_of_resolve h
  exact (hgrows.links occurrence hmem).globalOf? (nodup_references h)

end Algorithm

end PlusCalGo
