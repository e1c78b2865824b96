import PlusCalGo.Proofs.Names.Fitting
import PlusCalGo.Proofs.Names.Lowering

/-!
# Names that stand for something

What a name in a piece of code stands for is declared around it, and the name denotes that unless a
rival has taken it. That is so in code made of parts for which it is, and in the calls of sections.
-/

namespace PlusCalGo.Go

/-! ## Words -/

/-- What the name stands for is declared around it, and it denotes that unless a rival hides it. An
identifier of the algorithm stands for the variable of the declaration it refers to, and only the
back end can take it away. -/
def Word.Hosted (definitions : Definitions) (strategy : Strategy) (word : Word)
    (blocks : Blocks) : Prop :=
  match word with
  | text _ => True
  | identifier uid name => ∃ definition, definitions.resolve uid = .ok definition ∧
      definition.name = name ∧
      blocks.Hosts name (variableOf strategy definition) (variableOf strategy definition).Hides
  | own name declared => blocks.Hosts name declared declared.Rivals

/-- All names in the code are so. -/
def NamedCode.Hosted (definitions : Definitions) (strategy : Strategy) (blocks : Blocks)
    (code : List NamedCode) : Prop :=
  ∀ use ∈ NamedCode.listUses blocks code, use.1.Hosted definitions strategy use.2

namespace FunctionContext

variable {context : FunctionContext} {scopes : Scopes} {blocks : Blocks} {inner block : Block}

/-- All words denote what they stand for. -/
def Reads (context : FunctionContext) (blocks : Blocks) (words : List Word) : Prop :=
  ∀ word ∈ words, word.Hosted context.definitions context.strategy blocks

theorem Reads.append {first second : List Word} (hfirst : context.Reads blocks first)
    (hsecond : context.Reads blocks second) : context.Reads blocks (first ++ second) := by
  intro word hmem
  rcases List.mem_append.1 hmem with hmem | hmem
  · exact hfirst word hmem
  · exact hsecond word hmem

theorem reads_nil : context.Reads blocks [] := List.forall_mem_nil _

theorem Reads.text {words : List Word} (h : context.Reads blocks words) (string : String) :
    context.Reads blocks (.text string :: words) :=
  List.forall_mem_cons.2 ⟨trivial, h⟩

theorem Reads.own {words : List Word} {name : String} {declared : Declared}
    (h : context.Reads blocks words) (hhosts : blocks.Hosts name declared declared.Rivals) :
    context.Reads blocks (.own name declared :: words) :=
  List.forall_mem_cons.2 ⟨hhosts, h⟩

theorem Reads.listed {texts : List (List Word)} (h : ∀ words ∈ texts, context.Reads blocks words) :
    context.Reads blocks (Word.listed texts) := by
  induction texts using Word.listed.induct with
  | case1 => exact reads_nil
  | case2 words =>
    rw [Word.listed]
    exact h words List.mem_cons_self
  | case3 words rest hrest ih =>
    obtain ⟨hwords, hothers⟩ := List.forall_mem_cons.1 h
    rw [Word.listed.eq_3 words rest hrest]
    exact hwords.append ((ih hothers).text ", ")

/-- An empty block changes nothing. -/
theorem Reads.nest {words : List Word} (h : context.Reads blocks words) :
    context.Reads ([] :: blocks) words := by
  intro word hmem
  have hword := h word hmem
  cases word with
  | text string => trivial
  | identifier uid name =>
    obtain ⟨definition, hresolve, hname, hhosts⟩ := hword
    exact ⟨definition, hresolve, hname, hhosts.past (List.forall_mem_nil _)⟩
  | own name declared => exact Blocks.Hosts.past hword (List.forall_mem_nil _)

/-- The identifiers of an expression that sees its declarations. -/
theorem Shows.reads {named : List (Uid × String)} {words : List Word}
    (h : context.Shows scopes blocks) (hsees : context.definitions.Sees scopes named)
    (hwords : ∀ word ∈ words, word.Among named) : context.Reads blocks words := by
  intro word hmem
  have hword := hwords word hmem
  cases word with
  | text string => trivial
  | identifier uid name =>
    obtain ⟨declaration, hlookup, hfollow⟩ := hsees uid name hword
    obtain ⟨definition, hfind, hname, hhosts⟩ := h name declaration hlookup
    refine ⟨definition, ?_, hname, hhosts⟩
    simp only [Definitions.resolve, hfollow, bind, Except.bind, Definitions.definition, hfind]
  | own name declared => exact hword.elim

/-! ## Code -/

/-- All names in the code denote what they stand for, and it declares none for what is behind it. -/
structure Sound (context : FunctionContext) (blocks : Blocks) (code : List NamedCode) : Prop where
  hosted : NamedCode.Hosted context.definitions context.strategy blocks code
  declares : NamedCode.listAfter blocks code = blocks

theorem Sound.nil : context.Sound blocks [] := ⟨List.forall_mem_nil _, rfl⟩

theorem Sound.followed {first second : List NamedCode} (hfirst : context.Sound blocks first)
    (hsecond : NamedCode.Hosted context.definitions context.strategy blocks second) :
    NamedCode.Hosted context.definitions context.strategy blocks (first ++ second) := by
  unfold NamedCode.Hosted
  rw [NamedCode.listUses_append, hfirst.declares]
  exact List.forall_mem_append.2 ⟨hfirst.hosted, hsecond⟩

theorem Sound.append {first second : List NamedCode} (hfirst : context.Sound blocks first)
    (hsecond : context.Sound blocks second) : context.Sound blocks (first ++ second) where
  hosted := hfirst.followed hsecond.hosted
  declares := by
    rw [NamedCode.listAfter_append, hfirst.declares, hsecond.declares]

private theorem Reads.uses {words : List Word} (h : context.Reads blocks words) :
    ∀ use ∈ words.map (·, blocks), use.1.Hosted context.definitions context.strategy use.2 := by
  intro use hmem
  obtain ⟨word, hword, rfl⟩ := List.mem_map.1 hmem
  exact h word hword

private theorem hosted_singleton {code : NamedCode}
    (h : ∀ use ∈ code.uses blocks, use.1.Hosted context.definitions context.strategy use.2) :
    NamedCode.Hosted context.definitions context.strategy blocks [code] := by
  unfold NamedCode.Hosted
  rw [NamedCode.listUses, NamedCode.listUses, List.append_nil]
  exact h

theorem Reads.line {words : List Word} (h : context.Reads blocks words) :
    context.Sound blocks [.line words] :=
  ⟨hosted_singleton h.uses, rfl⟩

/-- A declaration is there for what is behind it. -/
theorem Reads.declare {words : List Word} {name : String} {declared : Declared}
    {rest : List NamedCode} (h : context.Reads (inner :: blocks) words)
    (hrest : NamedCode.Hosted context.definitions context.strategy
      (((name, declared) :: inner) :: blocks) rest) :
    NamedCode.Hosted context.definitions context.strategy (inner :: blocks)
      (.declare words name declared :: rest) := by
  unfold NamedCode.Hosted
  rw [NamedCode.listUses]
  exact List.forall_mem_append.2 ⟨h.uses, hrest⟩

theorem sound_label (name : String) : context.Sound blocks [.label name] :=
  ⟨hosted_singleton (List.forall_mem_nil _), rfl⟩

theorem sound_goto (name : String) : context.Sound blocks [.goto name] :=
  ⟨hosted_singleton (List.forall_mem_nil _), rfl⟩

theorem Sound.branch {condition : Condition} {yes no : List NamedCode}
    (hbefore : context.Reads blocks condition.before)
    (hwords : context.Reads (condition.declares :: blocks) condition.words)
    (hyes : context.Sound ([] :: condition.declares :: blocks) yes)
    (hno : context.Sound ([] :: condition.declares :: blocks) no) :
    context.Sound blocks [.branch condition yes no] := by
  refine ⟨hosted_singleton ?_, rfl⟩
  rw [NamedCode.uses]
  exact List.forall_mem_append.2 ⟨hbefore.uses, List.forall_mem_append.2 ⟨hwords.uses,
    List.forall_mem_append.2 ⟨hyes.hosted, hno.hosted⟩⟩⟩

theorem Sound.unless {words : List Word} {code : List NamedCode}
    (hwords : context.Reads blocks words) (hcode : context.Sound ([] :: [] :: blocks) code) :
    context.Sound blocks [branchUnless words code] :=
  .branch reads_nil (hwords.nest.text "!") hcode .nil

theorem Sound.loop {body : List NamedCode} (h : context.Sound ([] :: blocks) body) :
    context.Sound blocks [.loop body] :=
  ⟨hosted_singleton h.hosted, rfl⟩

/-- What a block declares is gone behind it. -/
theorem sound_block {body : List NamedCode}
    (h : NamedCode.Hosted context.definitions context.strategy ([] :: blocks) body) :
    context.Sound blocks [.block body] :=
  ⟨hosted_singleton h, rfl⟩

theorem sound_switch (subject : String) {cases : List (List NamedCode)}
    (h : ∀ body ∈ cases, context.Sound ([] :: blocks) body) :
    context.Sound blocks [.switch subject cases] := by
  refine ⟨hosted_singleton ?_, rfl⟩
  rw [NamedCode.uses]
  induction cases with
  | nil => exact List.forall_mem_nil _
  | cons body rest ih =>
    obtain ⟨hbody, hothers⟩ := List.forall_mem_cons.1 h
    rw [NamedCode.casesUses]
    exact List.forall_mem_append.2 ⟨hbody.hosted, ih hothers⟩

/-! ## Calls of sections -/

/-- The service moves globals only that functions have copies of. -/
def Moves (context : FunctionContext) : Prop :=
  ∀ group shared, context.strategy.sharedGlobals? group = some shared →
    ∀ name, name ∈ shared.loads ∨ name ∈ shared.stores → ∃ decl ∈ context.copies, decl.name = name

/-- The call is made in the way of the context, for the group of a label. -/
structure Issues (context : FunctionContext) (call : SectionCall) : Prop where
  strategy : call.strategy = context.strategy
  grouped : ∃ label, context.groups.groupOf? label = some call.group

/-- What the back end declares in a condition is there in the branches. -/
private theorem hosts_failure {declares : Block} (h : Block.named declares "err" = [.failure]) :
    Blocks.Hosts (declares :: blocks) "err" .failure Declared.failure.Rivals :=
  .here (Block.mem_named.1 (by simp [h])) (by simp [h])

private theorem sound_panic {declares : Block} (h : Block.named declares "err" = [.failure]) :
    context.Sound ([] :: declares :: blocks) [panicLine] :=
  Reads.line (((reads_nil.text ")").own
    ((hosts_failure h).past (List.forall_mem_nil _))).text "panic(")

private theorem reads_failure {declares : Block} (h : Block.named declares "err" = [.failure]) :
    context.Reads (declares :: blocks) failureWords :=
  ((reads_nil.text " != nil").own (hosts_failure h)).text "; "

theorem sound_namedCall {call : List Word} (h : context.Reads blocks call) :
    context.Sound blocks [namedCall call] :=
  .branch (h.text "err := ") (reads_failure rfl) (sound_panic rfl) .nil

section Calls

variable {shared : List (LockGroup × SharedGlobals)}

theorem sound_namedLoad (hfits : context.Fits scopes blocks)
    (hstrategy : context.strategy = .coordinated shared) {decl : VariableDecl}
    (hdecl : decl ∈ context.copies) : context.Sound blocks [namedLoad decl.name] := by
  have hservice := hfits.relied _ _ (.service hstrategy)
  have hcopy := hfits.relied _ _ (.copy hdecl)
  refine .branch (((reads_nil.text _).own hservice).text _) (reads_failure rfl) (sound_panic rfl) ?_
  -- The copy may have the name of the error or of the value, which is a rival of it then.
  have hinside : Blocks.Hosts ([] :: [("err", .failure), ("pgoValue", .loaded)] :: blocks)
      decl.name (.copy decl.name) (Declared.copy decl.name).Rivals := by
    refine (hcopy.inside ?_).past (List.forall_mem_nil _)
    intro other hmem
    simp only [List.mem_cons, Prod.mk.injEq, List.not_mem_nil, or_false] at hmem
    rcases hmem with ⟨_, rfl⟩ | ⟨_, rfl⟩ <;> exact ⟨by simp, rfl⟩
  have hvalue : Blocks.Hosts ([] :: [("err", .failure), ("pgoValue", .loaded)] :: blocks)
      "pgoValue" .loaded Declared.loaded.Rivals :=
    (Blocks.Hosts.here (by simp) (by simp [Block.named])).past (List.forall_mem_nil _)
  exact Reads.line (((reads_nil.own hvalue).text " = ").own hinside)

theorem sound_namedStore (hfits : context.Fits scopes blocks)
    (hstrategy : context.strategy = .coordinated shared) {decl : VariableDecl}
    (hdecl : decl ∈ context.copies) : context.Sound blocks [namedStore decl.name] :=
  sound_namedCall ((((reads_nil.text ")").own (hfits.relied _ _ (.copy hdecl))).text _).own
    (hfits.relied _ _ (.service hstrategy)))

theorem sound_namedLockCall (hfits : context.Fits scopes blocks)
    (hstrategy : context.strategy = .coordinated shared) (method group : String) :
    context.Sound blocks [namedLockCall method group] :=
  sound_namedCall ((((reads_nil.text _).own (hfits.relied _ _ .self)).text _).own
    (hfits.relied _ _ (.service hstrategy)))

theorem sound_namedMutexCall (hfits : context.Fits scopes blocks)
    (hstrategy : context.strategy = .inProcess) (hcount : 0 < context.groups.count)
    (method group : String) : context.Sound blocks [namedMutexCall method group] :=
  Reads.line ((reads_nil.text _).own (hfits.relied _ _ (.locks hstrategy hcount)))

end Calls

private theorem le_foldl_max (labels : List (Uid × LockGroup)) (start : Nat) :
    start ≤ labels.foldl (fun n entry => max n (entry.2.index + 1)) start := by
  induction labels generalizing start with
  | nil => exact Nat.le_refl start
  | cons entry rest ih => exact (Nat.le_max_left start _).trans (ih _)

/-- If a label has a group, there are groups. -/
theorem count_pos {groups : LockGroups} {label : Uid} {group : LockGroup}
    (h : groups.groupOf? label = some group) : 0 < groups.count := by
  unfold LockGroups.groupOf? at h
  unfold LockGroups.count
  cases hlabels : groups.labels with
  | nil => simp [hlabels] at h
  | cons entry rest =>
    have hfirst : 0 < max 0 (entry.2.index + 1) := by omega
    exact hfirst.trans_le (le_foldl_max rest _)

theorem sound_all {α : Type} {code : α → NamedCode} (items : List α)
    (h : ∀ item ∈ items, context.Sound blocks [code item]) :
    context.Sound blocks (items.map code) := by
  induction items with
  | nil => exact .nil
  | cons item rest ih =>
    obtain ⟨hitem, hothers⟩ := List.forall_mem_cons.1 h
    exact hitem.append (ih hothers)

/-- Whatever the service moves in or out for a group, the function has copies of. -/
theorem Moves.sound {group : LockGroup} {globals : SharedGlobals} {names : List String}
    {code : String → NamedCode} (hmoves : context.Moves)
    (hshared : context.strategy.sharedGlobals? group = some globals)
    (hnames : ∀ name ∈ names, name ∈ globals.loads ∨ name ∈ globals.stores)
    (hcode : ∀ decl ∈ context.copies, context.Sound blocks [code decl.name]) :
    context.Sound blocks (names.map code) := by
  refine sound_all names fun name hmem => ?_
  obtain ⟨decl, hdecl, rfl⟩ := hmoves group globals hshared name (hnames name hmem)
  exact hcode decl hdecl

/-- All names in the code of a call denote what they stand for. -/
theorem Issues.sound {call : SectionCall} (hissues : context.Issues call) (hmoves : context.Moves)
    (hfits : context.Fits scopes blocks) : context.Sound blocks call.named := by
  obtain ⟨strategy, action, group⟩ := call
  obtain ⟨rfl, label, hgroup⟩ := hissues
  have hcount := count_pos hgroup
  unfold SectionCall.named
  cases hstrategy : context.strategy with
  | inProcess =>
    cases action <;> exact sound_namedMutexCall hfits hstrategy hcount _ _
  | coordinated shared =>
    have hlock (method : String) := sound_namedLockCall hfits hstrategy method group.text
    have hmoved : ∀ globals, (Strategy.coordinated shared).sharedGlobals? group = some globals →
        context.Sound blocks (globals.loads.map namedLoad) ∧
          context.Sound blocks (globals.stores.map namedStore) := by
      rw [← hstrategy]
      intro globals hshared
      exact ⟨hmoves.sound hshared (fun _ => .inl) fun decl => sound_namedLoad hfits hstrategy,
        hmoves.sound hshared (fun _ => .inr) fun decl => sound_namedStore hfits hstrategy⟩
    cases action with
    | acquire =>
      refine (hlock "Lock").append ?_
      split
      · next globals hshared => exact (hmoved globals hshared).1
      · exact .nil
    | release =>
      refine Sound.append ?_ (hlock "Unlock")
      split
      · next globals hshared => exact (hmoved globals hshared).2
      · exact .nil
    | abort => exact hlock "Unlock"

end FunctionContext

end PlusCalGo.Go
