import PlusCalGo.Proofs.Resolution.Linking
import PlusCalGo.Proofs.Resolution.Visibility

/-!
# Resolution implements the scoping rules

Resolution refers each identifier to the declaration that is visible to it, and knows no other
identifiers and no other declarations. Each part of it adds a reference for every identifier inside,
while the scopes hold what has been declared at the place.
-/

namespace PlusCalGo

/-! ## What a part of resolution adds -/

/-- A reference from the identifier to the declaration that is visible to it. -/
def Site.Refers (site : Site) (reference : Uid × Uid) : Prop :=
  reference.1 = site.uid ∧
    ∃ declaration, site.declaration? = some declaration ∧ reference.2 = declaration.uid

namespace Definitions

/-- A reference is added for each identifier and a definition for each declaration, and nothing
else. -/
structure Gains (before after : Definitions) (sites : List Site) (declared : List Definition) :
    Prop where
  references : ∃ links, after.references = links ++ before.references ∧
    (∀ site ∈ sites, ∃ reference ∈ links, site.Refers reference) ∧
    ∀ reference ∈ links, ∃ site ∈ sites, site.Refers reference
  toList : after.toList = before.toList ++ declared
  nodup : (before.toList.map (·.uid)).Nodup → (after.toList.map (·.uid)).Nodup

section Gains

variable {before between after : Definitions} {sites more : List Site}
  {declared others : List Definition}

theorem Gains.refl (definitions : Definitions) : definitions.Gains definitions [] [] where
  references := ⟨[], rfl, by simp, by simp⟩
  toList := (List.append_nil _).symm
  nodup := id

theorem Gains.append (hfirst : before.Gains between sites declared)
    (hsecond : between.Gains after more others) :
    before.Gains after (sites ++ more) (declared ++ others) where
  references := by
    obtain ⟨early, hearly, hsites, hearlySites⟩ := hfirst.references
    obtain ⟨late, hlate, hmore, hlateSites⟩ := hsecond.references
    refine ⟨late ++ early, by rw [hlate, hearly, List.append_assoc], ?_, ?_⟩
    · intro site hsite
      rcases List.mem_append.1 hsite with hsite | hsite
      · obtain ⟨reference, hmem, hrefers⟩ := hsites site hsite
        exact ⟨reference, List.mem_append_right late hmem, hrefers⟩
      · obtain ⟨reference, hmem, hrefers⟩ := hmore site hsite
        exact ⟨reference, List.mem_append_left early hmem, hrefers⟩
    · intro reference hmem
      rcases List.mem_append.1 hmem with hmem | hmem
      · obtain ⟨site, hsite, hrefers⟩ := hlateSites reference hmem
        exact ⟨site, List.mem_append_right sites hsite, hrefers⟩
      · obtain ⟨site, hsite, hrefers⟩ := hearlySites reference hmem
        exact ⟨site, List.mem_append_left more hsite, hrefers⟩
  toList := by rw [hsecond.toList, hfirst.toList, List.append_assoc]
  nodup := fun h => hsecond.nodup (hfirst.nodup h)

end Gains

theorem gains_of_add {before after : Definitions} {definition : Definition}
    (h : before.add definition = .ok after) : before.Gains after [] [definition] := by
  unfold add at h
  split at h
  · cases h
  rename_i hnew
  cases h
  refine ⟨⟨[], rfl, by simp, by simp⟩, rfl, ?_⟩
  intro hnodup
  have hfresh : ∀ other ∈ before.toList, other.uid ≠ definition.uid := by
    simpa [find?] using hnew
  rw [List.map_append, List.map_singleton]
  apply List.nodup_append.2
  refine ⟨hnodup, by simp, ?_⟩
  intro uid huid other hother
  obtain ⟨earlier, hearlier, rfl⟩ := List.mem_map.1 huid
  rw [List.mem_singleton.1 hother]
  exact hfresh earlier hearlier

end Definitions

/-! ## Scopes -/

namespace Scopes

/-- The scopes hold what has been declared at a place. -/
def Shows (scopes : Scopes) (sight : Sight) : Prop :=
  scopes.entries = sight.all.map fun definition => (definition.name, definition.uid)

theorem Shows.lookup {scopes : Scopes} {sight : Sight} (h : scopes.Shows sight) (name : String) :
    scopes.lookup name = (sight.declarationOf? name).map (·.uid) := by
  have hentries : (scopes.inner :: scopes.outer).flatten = scopes.entries := rfl
  rw [Scopes.lookup, ← List.find?_flatten, hentries, h, Sight.declarationOf?_eq, List.find?_map,
    Option.map_map]
  rfl

theorem Shows.enter {scopes : Scopes} {sight : Sight} (h : scopes.Shows sight) :
    scopes.enter.Shows sight := h

end Scopes

/-! ## Expressions -/

namespace Expression

section Expressions

variable {scopes : Scopes} {sight : Sight} {location : TextLocation}

mutual

theorem gains_of_resolve (expression : Expression) {before after : Definitions}
    (hshows : scopes.Shows sight) (h : expression.resolve scopes location before = .ok after) :
    before.Gains after (expression.sites sight) [] := by
  cases expression with
  | number uid value =>
    cases h
    exact .refl _
  | bool uid value =>
    cases h
    exact .refl _
  | string uid value =>
    cases h
    exact .refl _
  | identifier uid name =>
    simp only [resolve] at h
    split at h
    · rename_i declaration hlookup
      cases h
      rw [hshows.lookup] at hlookup
      obtain ⟨definition, hdefinition, rfl⟩ := Option.map_eq_some_iff.1 hlookup
      have hrefers : Site.Refers ⟨sight, uid, name⟩ (uid, definition.uid) :=
        ⟨rfl, definition, hdefinition, rfl⟩
      refine ⟨⟨[(uid, definition.uid)], rfl, ?_, ?_⟩, (List.append_nil _).symm, id⟩
      · exact List.forall_mem_singleton.2 ⟨_, List.mem_singleton_self _, hrefers⟩
      · exact List.forall_mem_singleton.2 ⟨_, List.mem_singleton_self _, hrefers⟩
    · cases h
  | index uid function params =>
    obtain ⟨between, hfunction, hparams⟩ := ok_of_bind h
    have hall := (gains_of_resolve function hshows hfunction).append
      (gains_of_listResolve params hshows hparams)
    rwa [sites, listSites, ← List.map_append] at hall
  | binary uid op lhs rhs =>
    obtain ⟨between, hlhs, hrhs⟩ := ok_of_bind h
    have hall := (gains_of_resolve lhs hshows hlhs).append (gains_of_resolve rhs hshows hrhs)
    rwa [sites, sites, ← List.map_append] at hall
  | unary uid op operand => exact gains_of_resolve operand hshows h
  | tuple uid elements => exact gains_of_listResolve elements hshows h
  | ifElse uid condition yes no =>
    obtain ⟨first, hcondition, h⟩ := ok_of_bind h
    obtain ⟨second, hyes, hno⟩ := ok_of_bind h
    have hall := ((gains_of_resolve condition hshows hcondition).append
      (gains_of_resolve yes hshows hyes)).append (gains_of_resolve no hshows hno)
    rwa [sites, sites, sites, ← List.map_append, ← List.map_append] at hall
  | apply uid name args => exact gains_of_listResolve args hshows h

theorem gains_of_listResolve (expressions : List Expression) {before after : Definitions}
    (hshows : scopes.Shows sight)
    (h : listResolve scopes location expressions before = .ok after) :
    before.Gains after (listSites sight expressions) [] := by
  cases expressions with
  | nil =>
    cases h
    exact .refl _
  | cons expression rest =>
    obtain ⟨between, hexpression, hrest⟩ := ok_of_bind h
    have hall := (gains_of_resolve expression hshows hexpression).append
      (gains_of_listResolve rest hshows hrest)
    rwa [sites, listSites, ← List.map_append] at hall

end

end Expressions

end Expression

/-! ## Declarations one after the other -/

/-- A declaration that is added is in front of all others. -/
def Sight.Extends (sight : List Definition → Sight) : Prop :=
  ∀ definition earlier, (sight (definition :: earlier)).all = definition :: (sight earlier).all

namespace Resolved

/-- Evaluates the value of a declaration and only then declares its name. -/
def make (state : Resolved) (declaration : NameDeclaration) (location : TextLocation) :
    Except Diagnostic Resolved :=
  match declaration.value with
  | some value => state.resolve value location >>= (·.declare declaration.definition)
  | none => state.declare declaration.definition

theorem declareVariable_eq (state : Resolved) (kind : ResourceKind → DefinitionKind)
    (decl : VariableDecl) :
    state.declareVariable kind decl = state.make (decl.declaration kind) decl.location := by
  obtain ⟨uid, name, value, resource, location⟩ := decl
  cases value <;> rfl

theorem declareConstants_cons (state : Resolved) (decl : ConstantDecl) (rest : List ConstantDecl) :
    state.declareConstants (decl :: rest) =
      state.make decl.declaration TextLocation.unknown >>= (·.declareConstants rest) := by
  obtain ⟨uid, name, value⟩ := decl
  cases value with
  | none => rfl
  | some value => exact (bind_assoc (state.resolve value TextLocation.unknown) _ _).symm

/-- The declarations are made one after the other. -/
structure Declares (sight : List Definition → Sight) (earlier : List Definition)
    (state after : Resolved) (declarations : List NameDeclaration) : Prop where
  gains : state.definitions.Gains after.definitions
    (NameDeclaration.sites sight earlier declarations)
    (declarations.map NameDeclaration.definition)
  shown : after.scopes.Shows (sight (NameDeclaration.after earlier declarations))

section Declares

variable {sight : List Definition → Sight} {earlier : List Definition}
  {state between after : Resolved} {first second : List NameDeclaration}

theorem Declares.nil (hshows : state.scopes.Shows (sight earlier)) :
    Declares sight earlier state state [] :=
  ⟨.refl _, hshows⟩

theorem Declares.append (hfirst : Declares sight earlier state between first)
    (hsecond : Declares sight (NameDeclaration.after earlier first) between after second) :
    Declares sight earlier state after (first ++ second) where
  gains := by
    rw [NameDeclaration.sites_append, List.map_append]
    exact hfirst.gains.append hsecond.gains
  shown := by
    rw [NameDeclaration.after_append]
    exact hsecond.shown

variable (hextends : Sight.Extends sight) (hshows : state.scopes.Shows (sight earlier))
include hextends hshows

theorem declares_of_declare {definition : Definition}
    (h : state.declare definition = .ok after) :
    Declares sight earlier state after [⟨definition, none⟩] := by
  obtain ⟨⟨scopes, definitions⟩, hdeclare, h⟩ := ok_of_bind h
  cases h
  unfold Scopes.declare at hdeclare
  split at hdeclare
  · cases hdeclare
  obtain ⟨added, hadd, hdeclare⟩ := ok_of_bind hdeclare
  cases hdeclare
  refine ⟨Definitions.gains_of_add hadd, ?_⟩
  have hentries : Scopes.entries ⟨(definition.name, definition.uid) :: state.scopes.inner,
      state.scopes.outer⟩ = (definition.name, definition.uid) :: state.scopes.entries := rfl
  rw [Scopes.Shows, hentries, hshows, NameDeclaration.after]
  simp [hextends definition earlier]

theorem declares_of_make {declaration : NameDeclaration} {location : TextLocation}
    (h : state.make declaration location = .ok after) :
    Declares sight earlier state after [declaration] := by
  obtain ⟨definition, value⟩ := declaration
  cases value with
  | none => exact declares_of_declare hextends hshows h
  | some value =>
    obtain ⟨valued, hvalue, hdeclare⟩ := ok_of_bind h
    obtain ⟨definitions, hresolve, hvalue⟩ := ok_of_bind hvalue
    cases hvalue
    have hfirst := Expression.gains_of_resolve value hshows hresolve
    have hvalued : (Resolved.mk state.scopes definitions).scopes.Shows (sight earlier) := hshows
    have hsecond := declares_of_declare hextends hvalued hdeclare
    have hgains := hfirst.append hsecond.gains
    exact ⟨hgains, hsecond.shown⟩

end Declares

section Lists

variable {sight : List Definition → Sight} {earlier : List Definition} {state after : Resolved}
  (hextends : Sight.Extends sight) (hshows : state.scopes.Shows (sight earlier))
include hextends hshows

theorem declares_of_declareVariables {kind : ResourceKind → DefinitionKind}
    (decls : List VariableDecl) (h : state.declareVariables kind decls = .ok after) :
    Declares sight earlier state after (decls.map (VariableDecl.declaration kind)) := by
  induction decls generalizing state earlier with
  | nil =>
    cases h
    exact .nil hshows
  | cons decl rest ih =>
    obtain ⟨between, hdecl, hrest⟩ := ok_of_bind h
    rw [declareVariable_eq] at hdecl
    have hfirst := declares_of_make hextends hshows hdecl
    exact hfirst.append (ih hfirst.shown hrest)

theorem declares_of_declareBindings (bindings : List VariableDecl)
    (h : state.declareBindings bindings = .ok after) :
    Declares sight earlier state after (bindings.map VariableDecl.binding) := by
  induction bindings generalizing state earlier with
  | nil =>
    cases h
    exact .nil hshows
  | cons decl rest ih =>
    simp only [declareBindings] at h
    split at h
    · simp [bind, Except.bind, throw, throwThe, MonadExceptOf.throw] at h
    obtain ⟨between, hdecl, hrest⟩ := ok_of_bind h
    rw [declareVariable_eq] at hdecl
    have hfirst := declares_of_make hextends hshows hdecl
    exact hfirst.append (ih hfirst.shown hrest)

theorem declares_of_declareConstants (decls : List ConstantDecl)
    (h : state.declareConstants decls = .ok after) :
    Declares sight earlier state after (decls.map ConstantDecl.declaration) := by
  induction decls generalizing state earlier with
  | nil =>
    cases h
    exact .nil hshows
  | cons decl rest ih =>
    rw [declareConstants_cons] at h
    obtain ⟨between, hdecl, hrest⟩ := ok_of_bind h
    have hfirst := declares_of_make hextends hshows hdecl
    exact hfirst.append (ih hfirst.shown hrest)

end Lists

end Resolved

/-! ## Statements -/

namespace Statement

section Statements

variable {arities : Arities}

theorem gains_of_pairs {scopes : Scopes} {sight : Sight} {location : TextLocation}
    (pairs : List AssignmentPair) {before after : Definitions} (hshows : scopes.Shows sight)
    (h : AssignmentPair.resolveList scopes location pairs before = .ok after) :
    before.Gains after
      (pairs.flatMap fun pair => pair.lhs.sites sight ++ pair.rhs.sites sight) [] := by
  induction pairs generalizing before with
  | nil =>
    cases h
    exact .refl _
  | cons pair rest ih =>
    simp only [AssignmentPair.resolveList] at h
    split at h
    · simp [bind, Except.bind, throw, throwThe, MonadExceptOf.throw] at h
    obtain ⟨first, hlhs, h⟩ := ok_of_bind h
    obtain ⟨second, hrhs, hrest⟩ := ok_of_bind h
    exact ((Expression.gains_of_resolve pair.lhs hshows hlhs).append
      (Expression.gains_of_resolve pair.rhs hshows hrhs)).append (ih hrest)

mutual

theorem gains_of_resolve (statement : Statement) {scopes : Scopes} {sight : Sight}
    {before after : Definitions} (hshows : scopes.Shows sight)
    (h : statement.resolve arities scopes before = .ok after) :
    before.Gains after (statement.sites sight) (VariableDecl.bound statement.bindings) := by
  cases statement with
  | labeled mark label body => exact gains_of_listResolve body hshows h
  | whileDo mark condition body =>
    obtain ⟨between, hcondition, hbody⟩ := ok_of_bind h
    exact (Expression.gains_of_resolve condition hshows hcondition).append
      (gains_of_listResolve body hshows hbody)
  | ifElse mark condition yes no =>
    obtain ⟨first, hcondition, h⟩ := ok_of_bind h
    obtain ⟨second, hyes, hno⟩ := ok_of_bind h
    rw [bindings, VariableDecl.bound_append]
    exact (Expression.gains_of_resolve condition hshows hcondition).append
      ((gains_of_listResolve yes hshows hyes).append (gains_of_listResolve no hshows hno))
  | either mark cases =>
    simp only [resolve] at h
    split at h
    · cases h
    exact gains_of_casesResolve cases hshows h
  | assign mark pairs => exact gains_of_pairs pairs hshows h
  | call mark target arguments =>
    simp only [resolve] at h
    split at h
    · cases h
    split at h
    · cases h
    exact Expression.gains_of_listResolve arguments hshows h
  | macroCall mark target arguments => cases h
  | withDo mark bindings body =>
    obtain ⟨inside, hbindings, hbody⟩ := ok_of_bind h
    have hextends : Sight.Extends fun bound => { sight with bindings := bound } :=
      fun _ _ => rfl
    have hdeclares := Resolved.declares_of_declareBindings hextends hshows.enter bindings hbindings
    rw [Statement.bindings, VariableDecl.bound_append]
    exact hdeclares.gains.append (gains_of_listResolve body hdeclares.shown hbody)
  | print mark value => exact Expression.gains_of_resolve value hshows h
  | assert mark value => exact Expression.gains_of_resolve value hshows h
  | await mark value => exact Expression.gains_of_resolve value hshows h
  | leave mark =>
    cases h
    exact .refl _
  | skip mark =>
    cases h
    exact .refl _
  | goto mark target =>
    cases h
    exact .refl _

theorem gains_of_listResolve (statements : List Statement) {scopes : Scopes} {sight : Sight}
    {before after : Definitions} (hshows : scopes.Shows sight)
    (h : listResolve arities scopes statements before = .ok after) :
    before.Gains after (listSites sight statements)
      (VariableDecl.bound (listBindings statements)) := by
  cases statements with
  | nil =>
    cases h
    exact .refl _
  | cons statement rest =>
    obtain ⟨between, hstatement, hrest⟩ := ok_of_bind h
    rw [listBindings, VariableDecl.bound_append]
    exact (gains_of_resolve statement hshows hstatement).append
      (gains_of_listResolve rest hshows hrest)

theorem gains_of_casesResolve (cases : List (List Statement)) {scopes : Scopes} {sight : Sight}
    {before after : Definitions} (hshows : scopes.Shows sight)
    (h : casesResolve arities scopes cases before = .ok after) :
    before.Gains after (casesSites sight cases) (VariableDecl.bound (casesBindings cases)) := by
  cases cases with
  | nil =>
    cases h
    exact .refl _
  | cons body rest =>
    obtain ⟨between, hbody, hrest⟩ := ok_of_bind h
    rw [casesBindings, VariableDecl.bound_append]
    exact (gains_of_listResolve body hshows hbody).append
      (gains_of_casesResolve rest hshows hrest)

end

end Statements

end Statement

/-! ## Bodies and algorithms -/

section Bodies

variable {arities : Arities} {scopes : Scopes} {shared : List Definition}
  {before after : Definitions}

theorem Resolved.gains_of_resolveBody {own : List NameDeclaration} {state declared : Resolved}
    {body : List Statement}
    (hdeclares : Declares (fun own => ⟨[], own, shared⟩) [] state declared own)
    (h : resolveBody arities declared body = .ok after) :
    state.definitions.Gains after (bodySites shared own body) (bodyDeclarations own body) := by
  obtain ⟨_, _, h⟩ := ok_of_bind h
  exact hdeclares.gains.append (Statement.gains_of_listResolve body hdeclares.shown h)

variable (hshows : scopes.Shows ⟨[], [], shared⟩)
include hshows

theorem Procedure.gains_of_resolve {procedure : Procedure}
    (h : procedure.resolve arities scopes before = .ok after) :
    before.Gains after (procedure.sites shared) procedure.declarations := by
  obtain ⟨first, hparams, h⟩ := ok_of_bind h
  obtain ⟨second, hlocals, h⟩ := ok_of_bind h
  have hextends : Sight.Extends fun own => ⟨[], own, shared⟩ := fun _ _ => rfl
  have hparams := Resolved.declares_of_declareVariables hextends hshows.enter _ hparams
  have hlocals := Resolved.declares_of_declareVariables hextends hparams.shown _ hlocals
  exact Resolved.gains_of_resolveBody (hparams.append hlocals) h

theorem ProcessSelf.gains_of_resolve {value : ProcessSelf}
    (h : value.resolve scopes before = .ok after) :
    before.Gains after (value.sites ⟨[], [], shared⟩) [] := by
  cases value with
  | single value => exact Expression.gains_of_resolve value hshows h
  | range low high =>
    obtain ⟨between, hlow, hhigh⟩ := ok_of_bind h
    exact (Expression.gains_of_resolve low hshows hlow).append
      (Expression.gains_of_resolve high hshows hhigh)

theorem Process.gains_of_resolve {process : Process}
    (h : process.resolve arities scopes before = .ok after) :
    before.Gains after (process.sites shared) process.declarations := by
  obtain ⟨first, hvalue, h⟩ := ok_of_bind h
  obtain ⟨second, hself, h⟩ := ok_of_bind h
  obtain ⟨third, hlocals, h⟩ := ok_of_bind h
  have hextends : Sight.Extends fun own => ⟨[], own, shared⟩ := fun _ _ => rfl
  have hvalue := ProcessSelf.gains_of_resolve hshows hvalue
  have hself : Resolved.Declares (fun own => ⟨[], own, shared⟩) [] ⟨scopes.enter, first⟩ second _ :=
    Resolved.declares_of_declare hextends hshows.enter hself
  have hlocals := Resolved.declares_of_declareVariables hextends hself.shown _ hlocals
  exact hvalue.append (Resolved.gains_of_resolveBody (hself.append hlocals) h)

theorem Procedure.gains_of_resolveList (procedures : List Procedure)
    (h : Procedure.resolveList arities scopes procedures before = .ok after) :
    before.Gains after (procedures.flatMap (Procedure.sites shared))
      (procedures.flatMap Procedure.declarations) := by
  induction procedures generalizing before with
  | nil =>
    cases h
    exact .refl _
  | cons procedure rest ih =>
    obtain ⟨between, hprocedure, hrest⟩ := ok_of_bind h
    exact (Procedure.gains_of_resolve hshows hprocedure).append (ih hrest)

theorem Process.gains_of_resolveList (processes : List Process)
    (h : Process.resolveList arities scopes processes before = .ok after) :
    before.Gains after (processes.flatMap (Process.sites shared))
      (processes.flatMap Process.declarations) := by
  induction processes generalizing before with
  | nil =>
    cases h
    exact .refl _
  | cons process rest ih =>
    obtain ⟨between, hprocess, hrest⟩ := ok_of_bind h
    exact (Process.gains_of_resolve hshows hprocess).append (ih hrest)

end Bodies

namespace Algorithm

variable {algorithm : Algorithm} {definitions : Definitions}

theorem gains_of_resolve (h : algorithm.resolve = .ok definitions) :
    Definitions.empty.Gains definitions algorithm.sites algorithm.declarations := by
  obtain ⟨_, _, h⟩ := ok_of_bind h
  obtain ⟨first, hconstants, h⟩ := ok_of_bind h
  obtain ⟨second, hglobals, h⟩ := ok_of_bind h
  obtain ⟨third, hprocedures, hprocesses⟩ := ok_of_bind h
  have hextends : Sight.Extends fun shared => ⟨[], [], shared⟩ := fun _ _ => rfl
  have hempty : Scopes.empty.Shows ⟨[], [], []⟩ := rfl
  have hconstants := Resolved.declares_of_declareConstants hextends hempty _ hconstants
  have hglobals := Resolved.declares_of_declareVariables hextends hconstants.shown _ hglobals
  have hshared := hconstants.append hglobals
  have hprocedures := Procedure.gains_of_resolveList hshared.shown _ hprocedures
  have hprocesses := Process.gains_of_resolveList hshared.shown _ hprocesses
  exact hshared.gains.append (hprocedures.append hprocesses)

end Algorithm

/-! ## The scoping rules -/

namespace Definitions

variable {definitions : Definitions}

theorem followReference_eq_ok (hnodup : (definitions.references.map (·.1)).Nodup)
    {identifier declaration : Uid} : definitions.followReference identifier = .ok declaration ↔
      (identifier, declaration) ∈ definitions.references := by
  constructor
  · intro h
    unfold followReference at h
    split at h
    · rename_i found hfound
      cases h
      obtain ⟨reference, hfind, rfl⟩ := Option.map_eq_some_iff.1 hfound
      have hidentifier : reference.1 = identifier := by simpa using List.find?_some hfind
      rw [← hidentifier]
      exact List.mem_of_find?_eq_some hfind
    · cases h
  · intro hmem
    rw [followReference, declarationOf?, find?_of_mem hnodup hmem]
    rfl

theorem definition_eq_ok (hnodup : (definitions.toList.map (·.uid)).Nodup) {uid : Uid}
    {definition : Definition} : definitions.definition uid = .ok definition ↔
      definition ∈ definitions.toList ∧ definition.uid = uid := by
  constructor
  · intro h
    unfold Definitions.definition at h
    split at h
    · rename_i found hfound
      cases h
      exact ⟨List.mem_of_find?_eq_some hfound, by simpa using List.find?_some hfound⟩
    · cases h
  · rintro ⟨hmem, rfl⟩
    have hfind : definitions.find? definition.uid = some definition := by
      refine List.find?_eq_some_iff_append.2 ⟨by simp, ?_⟩
      obtain ⟨front, back, hsplit⟩ := List.append_of_mem hmem
      refine ⟨front, back, hsplit, ?_⟩
      intro other hother
      rw [hsplit, List.map_append, List.nodup_append] at hnodup
      have hne := hnodup.2.2 other.uid (List.mem_map_of_mem hother) definition.uid (by simp)
      simpa using hne
    rw [Definitions.definition, hfind]

end Definitions

namespace Algorithm

variable {algorithm : Algorithm} {definitions : Definitions}

/-- Resolution refers each identifier to the declaration that is visible to it, and no other uid to
anything. It knows all declarations under their uids, and no others. -/
theorem scoping_exact (h : algorithm.resolve = .ok definitions) :
    (∀ uid, (∃ declaration, definitions.followReference uid = .ok declaration) ↔
      ∃ site ∈ algorithm.sites, site.uid = uid) ∧
    (∀ site ∈ algorithm.sites, ∃ declaration, site.declaration? = some declaration ∧
      definitions.followReference site.uid = .ok declaration.uid) ∧
    (∀ uid definition, definitions.definition uid = .ok definition ↔
      definition ∈ algorithm.declarations ∧ definition.uid = uid) ∧
    definitions.globals =
      algorithm.globals.map fun decl => ⟨decl.uid, decl.name, .global decl.resource, decl.location⟩
    := by
  have hgains := gains_of_resolve h
  have hreferences := nodup_references h
  have htoList : definitions.toList = algorithm.declarations := hgains.toList
  obtain ⟨links, hlinks, hsites, hothers⟩ := hgains.references
  have hlinks : definitions.references = links := by
    rw [hlinks, Definitions.empty, List.append_nil]
  have hvisible : ∀ site ∈ algorithm.sites, ∃ declaration, site.declaration? = some declaration ∧
      definitions.followReference site.uid = .ok declaration.uid := by
    intro site hsite
    obtain ⟨reference, hreference, huid, declaration, hdeclaration, htarget⟩ := hsites site hsite
    refine ⟨declaration, hdeclaration, (Definitions.followReference_eq_ok hreferences).2 ?_⟩
    rw [hlinks, ← huid, ← htarget]
    exact hreference
  refine ⟨?_, hvisible, ?_, ?_⟩
  · intro uid
    constructor
    · rintro ⟨declaration, hfollow⟩
      have hmem := (Definitions.followReference_eq_ok hreferences).1 hfollow
      rw [hlinks] at hmem
      obtain ⟨site, hsite, huid, _⟩ := hothers _ hmem
      exact ⟨site, hsite, huid.symm⟩
    · rintro ⟨site, hsite, rfl⟩
      obtain ⟨declaration, _, hfollow⟩ := hvisible site hsite
      exact ⟨declaration.uid, hfollow⟩
  · intro uid definition
    have hnodup := hgains.nodup List.nodup_nil
    rw [Definitions.definition_eq_ok hnodup, htoList]
  · rw [Definitions.globals, htoList, filter_declarations]
    rfl

end Algorithm

/-! ## Names that hide one another

A local, and a binding of it, have the name of the global variable. None of them is visible to its
own initial value. -/

def shadowing : Algorithm :=
  let mark (number : UInt32) : Mark := ⟨⟨number⟩, .unknown⟩
  ⟨"T", [], [⟨⟨1⟩, "x", none, .plain, .unknown⟩], [],
    [⟨⟨2⟩, "P", ⟨3⟩, .single (.identifier ⟨4⟩ "x"),
      [⟨⟨5⟩, "x", some (.identifier ⟨6⟩ "x"), .plain, .unknown⟩],
      [.labeled (mark 10) ⟨⟨11⟩, "a"⟩
        [.withDo (mark 12) [⟨⟨13⟩, "x", some (.identifier ⟨14⟩ "x"), .plain, .unknown⟩]
          [.print (mark 15) (.identifier ⟨16⟩ "x")],
        .print (mark 17) (.identifier ⟨18⟩ "x")]]⟩]⟩

def shadowingDefinitions : Definitions :=
  ⟨[⟨⟨1⟩, "x", .global .plain, .unknown⟩, ⟨⟨3⟩, "self", .processSelf, .unknown⟩,
      ⟨⟨5⟩, "x", .localVariable .plain, .unknown⟩, ⟨⟨13⟩, "x", .bound, .unknown⟩],
    [(⟨18⟩, ⟨5⟩), (⟨16⟩, ⟨13⟩), (⟨14⟩, ⟨5⟩), (⟨6⟩, ⟨1⟩), (⟨4⟩, ⟨1⟩)]⟩

theorem Algorithm.scoping_exact_shadowing :
    shadowing.resolve = .ok shadowingDefinitions ∧
      (shadowing.sites.map fun site => (site.uid, site.declaration?.map (·.uid))) =
        [(⟨4⟩, some ⟨1⟩), (⟨6⟩, some ⟨1⟩), (⟨14⟩, some ⟨5⟩), (⟨16⟩, some ⟨13⟩), (⟨18⟩, some ⟨5⟩)] ∧
      ∀ site ∈ shadowing.sites, ∃ declaration, site.declaration? = some declaration ∧
        shadowingDefinitions.followReference site.uid = .ok declaration.uid := by
  have hresolve : shadowing.resolve = .ok shadowingDefinitions := rfl
  obtain ⟨_, hvisible, _⟩ := Algorithm.scoping_exact hresolve
  exact ⟨hresolve, by decide, hvisible⟩

end PlusCalGo
