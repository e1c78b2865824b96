import PlusCalGo.Proofs.Go.Functions
import PlusCalGo.Proofs.Locking.Groups
import PlusCalGo.Proofs.Names.Spelling
import PlusCalGo.Proofs.Names.Statements
import PlusCalGo.Proofs.Resolution.Declarations

/-!
# Names in functions

The blocks around the code of a function, and the names in it: the file declares constants, globals,
functions and locks, the function its parameters, copies of globals and locals.
-/

namespace PlusCalGo

namespace Go

/-! ## Blocks of a program -/

/-- What the file declares to lock with. -/
def LockHome.block : LockHome → Block
  | mutexes count => if count = 0 then [] else [(lockArray, .locks)]
  | service _ => [(globalState, .service)]

/-- The names of the packages that the file imports. -/
def Program.imported (program : Program) : List String :=
  program.packages.map fun path => if path = "math/rand" then "rand" else path

def sourceBlock (entries : List (String × Uid)) : Block :=
  entries.map fun (name, declaration) => (name, .source declaration)

/-- The names of functions in the file. -/
def Program.functionBlock (program : Program) : Block :=
  (program.functions.map (·.name) ++ ["main"]).map (·, .function)

/-- The names that the file declares, with these constants and globals. -/
def Program.block (program : Program) (entries : List (String × Uid)) : Block :=
  (sourceBlock entries ++ program.functionBlock) ++
    (program.locks.block ++ program.imported.map (·, .package))

/-- The names that a function declares in its head. -/
def headBlock (params : List VariableDecl) : Block :=
  (sourceBlock (params.map fun decl => (decl.name, decl.uid))).reverse ++ [("self", .self)]

def copyBlock (copies : List VariableDecl) : Block :=
  (copies.map fun decl => (decl.name, .copy decl.name)).reverse

/-! ## Functions -/

namespace FunctionContext

variable {context : FunctionContext} {scopes : Scopes} {blocks : Blocks} {inner : Block}

/-- Declarations of which each one adds to scope and block. -/
theorem Fits.addAll {kind : ResourceKind → DefinitionKind} (decls : List VariableDecl)
    (h : context.Fits scopes (inner :: blocks))
    (htakes : scopes.Takes context.definitions kind decls)
    (hkind : ∀ decl : VariableDecl, variableOf context.strategy
      ⟨decl.uid, decl.name, kind decl.resource, decl.location⟩ = .source decl.uid) :
    context.Fits (scopes.addAll decls)
      (((sourceBlock (decls.map fun decl => (decl.name, decl.uid))).reverse ++ inner) ::
        blocks) := by
  induction decls generalizing scopes inner with
  | nil => exact h
  | cons decl rest ih =>
    obtain ⟨_, hfresh, hfind, htakes⟩ := htakes
    have hadd := h.add ⟨decl.uid, decl.name, kind decl.resource, decl.location⟩ hfind hfresh
      (hkind decl)
    have hrest := ih hadd htakes
    simpa [sourceBlock, Scopes.addAll] using hrest

/-- In a process `self` stands for the parameter. -/
theorem Fits.addSelf (h : context.Fits scopes (inner :: blocks)) {declaration : Uid}
    (hfind : context.definitions.find? declaration =
      some ⟨declaration, "self", .processSelf, .unknown⟩)
    (hhosts : Blocks.Hosts (inner :: blocks) "self" .self Declared.self.Hides) :
    context.Fits (scopes.add "self" declaration) (inner :: blocks) where
  shows := by
    intro name other hlookup
    by_cases hname : "self" = name
    · subst hname
      rw [Scopes.lookup_add_self, Option.some.injEq] at hlookup
      subst hlookup
      exact ⟨_, hfind, rfl, hhosts⟩
    · rw [Scopes.lookup_add_ne scopes hname] at hlookup
      exact h.shows name other hlookup
  relied := h.relied
  inScope := fun block hblock name other hmem hfresh =>
    h.inScope block hblock name other hmem hfresh.of_add

/-- The copies are declared one after the other. -/
theorem hosted_copies (copies : List VariableDecl) (hnodup : (copies.map (·.name)).Nodup)
    (hinner : ∀ decl ∈ copies, ∀ other, (decl.name, other) ∈ inner → other.isCopy = false)
    {rest : List NamedCode}
    (hrest : NamedCode.Hosted context.definitions context.strategy
      ((copyBlock copies ++ inner) :: blocks) rest) :
    NamedCode.Hosted context.definitions context.strategy (inner :: blocks)
      (nameCopies copies ++ rest) := by
  induction copies generalizing inner with
  | nil => exact hrest
  | cons decl others ih =>
    obtain ⟨hne, hnodup⟩ := List.nodup_cons.1 hnodup
    obtain ⟨hdecl, hothers⟩ := List.forall_mem_cons.1 hinner
    rw [nameCopies, List.cons_append, List.cons_append]
    refine (reads_nil.text _).declare ?_
    have hhosts : Blocks.Hosts (([] ++ (decl.name, .copy decl.name) :: inner) :: blocks) decl.name
        (.copy decl.name) (Declared.copy decl.name).Rivals := .among hdecl
    refine (Reads.line ((reads_nil.own hhosts).text "_ = ")).followed (ih hnodup ?_ ?_)
    · intro other hother found hmem
      rcases List.mem_cons.1 hmem with hmem | hmem
      · obtain ⟨hname, _⟩ := Prod.mk.inj hmem
        exact (hne (List.mem_map.2 ⟨other, hother, hname⟩)).elim
      · exact hothers other hother found hmem
    · simpa [copyBlock] using hrest

theorem ensures_locals (locals : List VariableDecl) (h : context.Fits scopes (inner :: blocks))
    (htakes : scopes.Takes context.definitions .localVariable locals) :
    context.Ensures (nameLocals context.definitions locals)
      (context.Declares (scopes.addAll locals) inner blocks) := by
  induction locals generalizing scopes inner with
  | nil => exact .pure h.declares_nil
  | cons decl rest ih =>
    obtain ⟨hsees, hfresh, hfind, htakes⟩ := htakes
    rw [nameLocals]
    refine (ensures_attempt _).bind fun words hwords => ?_
    have hreads : context.Reads (inner :: blocks) words := by
      unfold declarationWords at hwords
      cases hvalue : decl.value with
      | none =>
        rw [hvalue] at hwords
        cases hwords
        exact reads_nil.text _
      | some value =>
        rw [hvalue] at hwords
        obtain ⟨found, hfound, hwords⟩ := ok_of_bind hwords
        cases hwords
        exact (h.shows.reads (hsees value hvalue)
          (Expression.words_among context.definitions value hfound)).text _
    have hadd := h.add ⟨decl.uid, decl.name, .localVariable decl.resource, decl.location⟩ hfind
      hfresh rfl
    refine (ih hadd htakes).bind fun code hcode => .pure ?_
    exact h.declares_cons ⟨decl.uid, decl.name, .localVariable decl.resource, decl.location⟩ hfind
      hfresh rfl hreads hcode

/-- All names in a function denote what they stand for. -/
theorem ensures_function (hmoves : context.Moves) {locals : List VariableDecl}
    {body : List Statement}
    (hfits : context.Fits scopes ((copyBlock context.copies ++ inner) :: blocks))
    (hnodup : (context.copies.map (·.name)).Nodup)
    (hinner : ∀ entry ∈ inner, entry.2.isCopy = false)
    (htakes : scopes.Takes context.definitions .localVariable locals)
    (hscoped : Statement.ListScoped context.definitions (scopes.addAll locals) body) :
    context.Ensures (nameFunction context.definitions context.copies locals body)
      (NamedCode.Hosted context.definitions context.strategy (inner :: blocks)) := by
  have hcopies : context.Ensures (pure (nameCopies context.copies))
      (fun code => code = nameCopies context.copies) := .pure rfl
  refine hcopies.bind fun copies hcopies => ?_
  subst hcopies
  have hlocals := ensures_locals locals hfits htakes
  have hcode : context.Ensures (nameLocals context.definitions locals ++
      (nameStatements context.definitions (Statement.listJumpTargets body) body ++
        Noting.close.named)) (NamedCode.Hosted context.definitions context.strategy
          ((copyBlock context.copies ++ inner) :: blocks)) := by
    refine hlocals.bind fun code hcode => ?_
    obtain ⟨block, hblock, hdeclares⟩ := hcode
    refine ((ensures_statements hmoves _ body hblock hscoped).append
      (ensures_close hmoves hblock)).bind fun rest hrest => .pure ?_
    exact hdeclares rest hrest.hosted
  refine hcode.bind fun code hcode => .pure (hosted_copies context.copies hnodup ?_ hcode)
  exact fun decl _ other hmem => hinner _ hmem

end FunctionContext

/-! ## Where functions begin -/

/-- A block of a function before anything of the algorithm is declared in it. -/
def startBlock (copies : List VariableDecl) : Block := copyBlock copies ++ [("self", .self)]

section Start

variable {copies : List VariableDecl} {blocks : Blocks} {rival : Declared → Prop}

private theorem mem_copyBlock {entry : String × Declared} (h : entry ∈ copyBlock copies) :
    ∃ decl ∈ copies, entry = (decl.name, .copy decl.name) := by
  obtain ⟨decl, hdecl, rfl⟩ := List.mem_map.1 (List.mem_reverse.1 h)
  exact ⟨decl, hdecl, rfl⟩

private theorem mem_startBlock {name : String} {other : Declared}
    (h : (name, other) ∈ startBlock copies) :
    other = .copy name ∨ name = "self" ∧ other = .self := by
  rcases List.mem_append.1 h with h | h
  · obtain ⟨decl, _, hdecl⟩ := mem_copyBlock h
    obtain ⟨rfl, rfl⟩ := Prod.mk.inj hdecl
    exact .inl rfl
  · exact .inr (Prod.mk.inj (List.mem_singleton.1 h))

theorem hosts_self (hrival : ∀ name, rival (.copy name)) :
    Blocks.Hosts (startBlock copies :: blocks) "self" .self rival := by
  refine .among fun other hmem => ?_
  rw [List.append_nil] at hmem
  obtain ⟨decl, _, hdecl⟩ := mem_copyBlock hmem
  rw [(Prod.mk.inj hdecl).2]
  exact hrival decl.name

private theorem names_copyBlock (hnodup : (copies.map (·.name)).Nodup) :
    ((copyBlock copies).map (·.1)).Nodup := by
  simpa [copyBlock, Function.comp_def] using hnodup

private theorem hosts_copy (hnodup : (copies.map (·.name)).Nodup) {decl : VariableDecl}
    (hdecl : decl ∈ copies) (hself : rival .self) :
    Blocks.Hosts (startBlock copies :: blocks) decl.name (.copy decl.name) rival := by
  have hmem : (decl.name, Declared.copy decl.name) ∈ copyBlock copies :=
    List.mem_reverse.2 (List.mem_map.2 ⟨decl, hdecl, rfl⟩)
  have hblock : startBlock copies = [] ++ (copyBlock copies ++ [("self", .self)]) := rfl
  rw [hblock]
  refine .within (names_copyBlock hnodup) hmem fun other hother => ?_
  rw [(Prod.mk.inj (List.mem_singleton.1 hother)).2]
  exact hself

end Start

section Program

variable {program : Program} {entries : List (String × Uid)} {copies : List VariableDecl}
  {name : String}

theorem mem_sourceBlock {other : Declared} (h : (name, other) ∈ sourceBlock entries) :
    ∃ declaration, other = .source declaration := by
  obtain ⟨entry, _, hentry⟩ := List.mem_map.1 h
  exact ⟨entry.2, (Prod.mk.inj hentry).2.symm⟩

private theorem mem_functionBlock {other : Declared} (h : (name, other) ∈ program.functionBlock) :
    other = .function := by
  obtain ⟨found, _, hfound⟩ := List.mem_map.1 h
  exact (Prod.mk.inj hfound).2.symm

theorem mem_locks {home : LockHome} {other : Declared} (h : (name, other) ∈ home.block) :
    name = lockArray ∧ other = .locks ∨ name = globalState ∧ other = .service := by
  cases home with
  | mutexes count =>
    rw [LockHome.block] at h
    split at h
    · cases h
    · exact .inl (Prod.mk.inj (List.mem_singleton.1 h))
  | service setup => exact .inr (Prod.mk.inj (List.mem_singleton.1 h))

private theorem packages_subset (program : Program) :
    program.packages ⊆ ["fmt", "math/rand", "sync", "pgonet"] := by
  obtain ⟨title, package, ⟨fmt, rand⟩, declarations, locks, functions, launches⟩ := program
  cases locks <;> cases fmt <;> cases rand <;> simp [Program.packages]

theorem mem_imported {other : Declared}
    (h : (name, other) ∈ program.imported.map (·, Declared.package)) :
    name ∈ ["fmt", "rand", "sync", "pgonet"] ∧ other = .package := by
  obtain ⟨found, hfound, hentry⟩ := List.mem_map.1 h
  obtain ⟨rfl, rfl⟩ := Prod.mk.inj hentry
  refine ⟨?_, rfl⟩
  obtain ⟨path, hpath, rfl⟩ := List.mem_map.1 hfound
  have hpaths := packages_subset program hpath
  fin_cases hpaths <;> decide

/-- The lock declaration of the file, seen from the start of a function. -/
private theorem hosts_locks {declared : Declared} (h : (name, declared) ∈ program.locks.block) :
    Blocks.Hosts [startBlock copies, program.block entries] name declared declared.Rivals := by
  have hnames : (program.locks.block.map (·.1)).Nodup := by
    cases program.locks with
    | mutexes count => rw [LockHome.block]; split <;> simp
    | service setup => simp [LockHome.block]
  have hrivals : ∀ other : Declared, other.isNamed = true → declared.Rivals other := by
    rcases mem_locks h with ⟨_, rfl⟩ | ⟨_, rfl⟩ <;> exact fun _ hother => hother
  have hfile : Blocks.Hosts [program.block entries] name declared declared.Rivals := by
    refine .within hnames h fun other hother => ?_
    simp only [List.mem_append] at hother
    rcases hother with (hother | hother) | hother
    · obtain ⟨declaration, rfl⟩ := mem_sourceBlock hother
      exact hrivals _ rfl
    · rw [mem_functionBlock hother]
      exact hrivals _ rfl
    · -- No package has the name.
      obtain ⟨hname, _⟩ := mem_imported hother
      rcases mem_locks h with ⟨rfl, _⟩ | ⟨rfl, _⟩ <;> simp [lockArray, globalState] at hname
  refine hfile.inside fun other hother => ?_
  rcases mem_startBlock hother with rfl | ⟨rfl, rfl⟩
  · refine ⟨?_, hrivals _ rfl⟩
    rcases mem_locks h with ⟨_, rfl⟩ | ⟨_, rfl⟩ <;> simp
  · rcases mem_locks h with ⟨hname, _⟩ | ⟨hname, _⟩ <;> simp [lockArray, globalState] at hname

private theorem hosts_source (program : Program) (copies : List VariableDecl)
    (hnodup : (entries.map (·.1)).Nodup) {declaration : Uid} (h : (name, declaration) ∈ entries) :
    Blocks.Hosts [startBlock copies, program.block entries] name (.source declaration)
      (Declared.source declaration).Hides := by
  have hnames : ((sourceBlock entries).map (·.1)).Nodup := by
    simpa [sourceBlock, Function.comp_def] using hnodup
  have hmem : (name, Declared.source declaration) ∈ sourceBlock entries :=
    List.mem_map.2 ⟨_, h, rfl⟩
  have hfile : Blocks.Hosts [program.block entries] name (.source declaration)
      (Declared.source declaration).Hides := by
    have hblock : program.block entries = [] ++ (sourceBlock entries ++ (program.functionBlock ++
        (program.locks.block ++ program.imported.map (·, .package)))) := by
      rw [Program.block, List.append_assoc, List.nil_append]
    rw [hblock]
    refine .within hnames hmem fun other hother => ?_
    simp only [List.nil_append, List.mem_append] at hother
    rcases hother with hother | hother | hother
    · rw [mem_functionBlock hother]
      exact ⟨rfl, by simp⟩
    · rcases mem_locks hother with ⟨_, rfl⟩ | ⟨_, rfl⟩ <;> exact ⟨rfl, by simp⟩
    · rw [(mem_imported hother).2]
      exact ⟨rfl, by simp⟩
  refine hfile.inside fun other hother => ?_
  rcases mem_startBlock hother with rfl | ⟨_, rfl⟩ <;> exact ⟨by simp, rfl, by simp⟩

end Program

/-! ## The start of a function -/

section Start

variable {algorithm : Algorithm} {definitions : Definitions} {groups : LockGroups}
  {settings : Settings} {program : Program} {strategy : Strategy}

/-- A program has mutexes and declares the globals, or it has a service and functions work on
copies. -/
private theorem mode_cases
    (hstrategy : Strategy.ofMode settings.locking groups definitions = .ok strategy)
    (hlocks : algorithm.lockHome definitions groups settings = .ok program.locks) :
    (strategy = .inProcess ∧ program.locks = .mutexes groups.count ∧
      algorithm.copiedGlobals settings.locking = [] ∧
      algorithm.packageGlobals settings.locking = algorithm.globals) ∨
    ((∃ shared, strategy = .coordinated shared) ∧ (∃ setup, program.locks = .service setup) ∧
      algorithm.copiedGlobals settings.locking = algorithm.globals) := by
  unfold Algorithm.lockHome at hlocks
  cases hmode : settings.locking with
  | inProcess =>
    rw [hmode] at hstrategy hlocks
    cases hstrategy
    exact .inl ⟨rfl, (Except.ok.inj hlocks).symm, rfl, rfl⟩
  | coordinated =>
    rw [hmode] at hstrategy hlocks
    obtain ⟨_, _, hstrategy⟩ := ok_of_bind hstrategy
    obtain ⟨shared, _, hstrategy⟩ := ok_of_bind hstrategy
    obtain ⟨values, _, hlocks⟩ := ok_of_bind hlocks
    exact .inr ⟨⟨shared, (Except.ok.inj hstrategy).symm⟩, ⟨_, (Except.ok.inj hlocks).symm⟩, rfl⟩

private theorem packageGlobals_sublist (algorithm : Algorithm) (locking : LockingMode) :
    (algorithm.packageGlobals locking).Sublist algorithm.globals := by
  cases locking with
  | inProcess => exact List.Sublist.refl _
  | coordinated => exact List.nil_sublist _

/-- Where a function begins, its blocks fit the scope that all of them share. -/
theorem fits_start (hscoped : algorithm.Scoped definitions)
    (hstrategy : Strategy.ofMode settings.locking groups definitions = .ok strategy)
    (hlocks : algorithm.lockHome definitions groups settings = .ok program.locks) :
    (algorithm.context definitions groups settings.locking strategy).Fits algorithm.scopes.enter
      [startBlock (algorithm.copiedGlobals settings.locking),
        program.block (algorithm.entries (algorithm.packageGlobals settings.locking))] where
  shows := by
    intro name declaration hlookup
    rw [Scopes.lookup_enter] at hlookup
    have hsource (hmem : (name, declaration) ∈
        algorithm.entries (algorithm.packageGlobals settings.locking)) :=
      hosts_source program (algorithm.copiedGlobals settings.locking)
        (hscoped.nodup_entries (packageGlobals_sublist algorithm _)) hmem
    rcases List.mem_append.1 (Algorithm.mem_of_lookup hlookup) with hmem | hmem
    · obtain ⟨decl, hdecl, hentry⟩ := List.mem_map.1 hmem
      obtain ⟨rfl, rfl⟩ := Prod.mk.inj hentry
      exact ⟨_, hscoped.constants.find decl hdecl, rfl, hsource (List.mem_append_left _ hmem)⟩
    · obtain ⟨decl, hdecl, hentry⟩ := List.mem_map.1 hmem
      obtain ⟨rfl, rfl⟩ := Prod.mk.inj hentry
      refine ⟨_, hscoped.globals.find decl hdecl, rfl, ?_⟩
      obtain ⟨hinProcess, _, _, hglobals⟩ | ⟨⟨shared, hshared⟩, _, hcopies⟩ :=
        mode_cases hstrategy hlocks
      · rw [hglobals] at hsource ⊢
        rw [Algorithm.context, hinProcess]
        exact hsource (List.mem_append_right _ hmem)
      · rw [Algorithm.context, hshared, hcopies]
        exact hosts_copy hscoped.nodup_globals hdecl ⟨rfl, by simp [variableOf]⟩
  relied := by
    intro name declared hrelies
    cases hrelies with
    | self => exact hosts_self fun _ => rfl
    | locks hinProcess hcount =>
      refine hosts_locks ?_
      obtain ⟨_, hhome, _⟩ | ⟨⟨shared, hshared⟩, _⟩ := mode_cases hstrategy hlocks
      · have hne : groups.count ≠ 0 := Nat.ne_of_gt hcount
        rw [hhome, LockHome.block, if_neg hne]
        exact List.mem_cons_self
      · cases hshared.symm.trans hinProcess
    | service hcoordinated =>
      refine hosts_locks ?_
      obtain ⟨hinProcess, _⟩ | ⟨_, ⟨setup, hhome⟩, _⟩ := mode_cases hstrategy hlocks
      · cases hinProcess.symm.trans hcoordinated
      · rw [hhome, LockHome.block]
        exact List.mem_cons_self
    | copy hdecl =>
      obtain ⟨_, _, hcopies, _⟩ | ⟨_, _, hcopies⟩ := mode_cases hstrategy hlocks
      · rw [Algorithm.context, hcopies] at hdecl
        cases hdecl
      · rw [Algorithm.context, hcopies] at hdecl
        rw [hcopies]
        exact hosts_copy hscoped.nodup_globals hdecl rfl
  inScope := by
    intro block hblock name declaration hmem
    cases hblock
    rcases mem_startBlock hmem with h | ⟨_, h⟩ <;> cases h

/-- The service moves globals only. -/
theorem moves_of_infer (hresolve : algorithm.resolve = .ok definitions)
    {atomicity : Atomicity} (hinfer : algorithm.inferAtomicity definitions = .ok atomicity)
    (hstrategy : Strategy.ofMode settings.locking atomicity.groups definitions = .ok strategy) :
    (algorithm.context definitions atomicity.groups settings.locking strategy).Moves := by
  intro group shared hshared name hname
  obtain ⟨hmode, uid, huid, definition, hdefinition, rfl⟩ :=
    Strategy.named_of_ofMode hstrategy hshared hname
  rw [LockGroups.mem_readsOf, LockGroups.mem_writesOf] at huid
  obtain ⟨found, hfind, hglobal⟩ := Algorithm.global_of_uses hresolve hinfer huid
  have hsame : found = definition := by
    rw [Definitions.definition, hfind] at hdefinition
    exact Except.ok.inj hdefinition
  subst hsame
  obtain ⟨decl, hdecl, hnamed, _⟩ := (Algorithm.valued_of_resolve hresolve).1 found
    (List.mem_of_find?_eq_some hfind) hglobal
  refine ⟨decl, ?_, hnamed.symm⟩
  rw [Algorithm.context, hmode]
  exact hdecl

end Start

end Go

end PlusCalGo
