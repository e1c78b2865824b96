import PlusCalGo.Proofs.Names.Denotations

/-!
# Names in statements

Each operation of lowering ensures that the names in its code denote what they stand for, and so do
all statements that are in scope.
-/

namespace PlusCalGo.Go

namespace FunctionContext

variable {context : FunctionContext} {scopes : Scopes} {blocks : Blocks} {inner block : Block}

/-! ## Operations -/

/-- The tracker belongs to the context, and the group that is open is that of a label. -/
structure Tracks (context : FunctionContext) (tracker : Tracker) : Prop where
  groups : tracker.groups.value = context.groups
  strategy : tracker.strategy.value = context.strategy
  grouped : ∀ group, tracker.openGroup = some group →
    ∃ label, context.groups.groupOf? label = some group

/-- If the operation goes well, its value has the property. -/
def Ensures {α : Type} (context : FunctionContext) (naming : Noting α) (property : α → Prop) :
    Prop :=
  ∀ progress value after, context.Tracks progress.tracker →
    naming progress = .ok (value, after) → context.Tracks after.tracker ∧ property value

section Operations

open Noting

variable {α β : Type} {property : α → Prop} {other : β → Prop}

theorem Tracks.idle {tracker : Tracker} (h : context.Tracks tracker) :
    context.Tracks tracker.idle :=
  ⟨h.groups, h.strategy, fun _ hgroup => by cases hgroup⟩

theorem Tracks.entered {tracker : Tracker} (h : context.Tracks tracker) (label : Uid)
    (name : String) : context.Tracks (tracker.entered label name) := by
  refine ⟨h.groups, h.strategy, fun group hgroup => ⟨label, ?_⟩⟩
  rw [← h.groups]
  exact hgroup

theorem Ensures.pure {value : α} (h : property value) :
    context.Ensures (Pure.pure value) property := by
  intro progress result after htracks hresult
  obtain ⟨rfl, rfl⟩ := pure_ok.1 hresult
  exact ⟨htracks, h⟩

theorem Ensures.bind {naming : Noting α} {next : α → Noting β}
    (h : context.Ensures naming property)
    (hnext : ∀ value, property value → context.Ensures (next value) other) :
    context.Ensures (naming >>= next) other := by
  intro progress result after htracks hresult
  obtain ⟨value, between, hvalue, hresult⟩ := bind_ok.1 hresult
  obtain ⟨hbetween, hproperty⟩ := h progress value between htracks hvalue
  exact hnext value hproperty between result after hbetween hresult

theorem Ensures.mono {naming : Noting α} {weaker : α → Prop} (h : context.Ensures naming property)
    (hweaker : ∀ value, property value → weaker value) : context.Ensures naming weaker := by
  intro progress value after htracks hvalue
  obtain ⟨hafter, hproperty⟩ := h progress value after htracks hvalue
  exact ⟨hafter, hweaker value hproperty⟩

theorem Ensures.append {first second : Noting (List NamedCode)}
    (hfirst : context.Ensures first (context.Sound blocks))
    (hsecond : context.Ensures second (context.Sound blocks)) :
    context.Ensures (first ++ second) (context.Sound blocks) :=
  hfirst.bind fun _ hfront => hsecond.bind fun _ hback => .pure (hfront.append hback)

theorem ensures_attempt (result : Except Diagnostic α) :
    context.Ensures (attempt result) (fun value => result = .ok value) := by
  intro progress value after htracks h
  obtain ⟨hresult, rfl⟩ := attempt_ok.1 h
  exact ⟨htracks, hresult⟩

theorem ensures_tracker : context.Ensures tracker context.Tracks := by
  intro progress value after htracks h
  obtain ⟨rfl, rfl⟩ := tracker_ok.1 h
  exact ⟨htracks, htracks⟩

theorem ensures_setTracker {tracker : Tracker} (h : context.Tracks tracker) :
    context.Ensures (setTracker tracker) (fun _ => True) := by
  intro progress value after _ hset
  cases hset
  exact ⟨h, trivial⟩

theorem ensures_setImports (change : Imports → Imports) :
    context.Ensures (setImports change) (fun _ => True) := by
  intro progress value after htracks hset
  cases hset
  exact ⟨htracks, trivial⟩

theorem ensures_takeTemporaries (count : Nat) :
    context.Ensures (takeTemporaries count) (fun _ => True) := by
  intro progress value after htracks htake
  cases htake
  exact ⟨htracks, trivial⟩

theorem ensures_throw (problem : Diagnostic) (property : α → Prop) :
    context.Ensures (throw problem) property := by
  intro progress value after _ h
  cases h

/-- The names in code of calls. -/
private theorem sound_ofCalls (hfits : context.Fits scopes blocks) (hmoves : context.Moves)
    (calls : List SectionCall) (h : ∀ call ∈ calls, context.Issues call) :
    context.Sound blocks (NotedCode.ofCalls calls).named := by
  induction calls with
  | nil => exact .nil
  | cons call rest ih =>
    obtain ⟨hcall, hothers⟩ := List.forall_mem_cons.1 h
    exact (hcall.sound hmoves hfits).append (ih hothers)

theorem Tracks.closing {tracker : Tracker} (h : context.Tracks tracker) :
    ∀ call ∈ tracker.closing, context.Issues call := by
  unfold Tracker.closing
  split
  · rename_i group label hgroup _
    exact List.forall_mem_singleton.2 ⟨h.strategy, h.grouped group hgroup⟩
  · exact List.forall_mem_nil _

theorem Tracks.opening {tracker : Tracker} (h : context.Tracks tracker) (label : Uid) :
    ∀ call ∈ tracker.opening label, context.Issues call := by
  unfold Tracker.opening
  rw [h.groups]
  split
  · rename_i group hgroup
    exact List.forall_mem_singleton.2 ⟨h.strategy, label, hgroup⟩
  · exact List.forall_mem_nil _

theorem Tracks.aborting {tracker : Tracker} (h : context.Tracks tracker) :
    ∀ call ∈ tracker.aborting, context.Issues call := by
  unfold Tracker.aborting
  split
  · rename_i group hgroup
    exact List.forall_mem_singleton.2 ⟨h.strategy, h.grouped group hgroup⟩
  · exact List.forall_mem_nil _

/-- An operation of which only the calls have names. -/
private theorem ensures_named {noting : Noting NotedCode}
    (h : ∀ progress code after, context.Tracks progress.tracker →
      noting progress = .ok (code, after) →
      context.Tracks after.tracker ∧ context.Sound blocks code.named) :
    context.Ensures noting.named (context.Sound blocks) := by
  intro progress named after htracks hnamed
  obtain ⟨code, between, hcode, hnamed⟩ := bind_ok.1 hnamed
  obtain ⟨rfl, rfl⟩ := pure_ok.1 hnamed
  exact h progress code after htracks hcode

theorem ensures_emitLine (text : String) :
    context.Ensures (emitLine text).named (context.Sound blocks) :=
  .pure (Reads.line (reads_nil.text text))

theorem ensures_declareLabel (name : String) :
    context.Ensures (declareLabel name).named (context.Sound blocks) := by
  apply ensures_named
  intro progress code after htracks h
  obtain ⟨_, rfl, rfl⟩ := declareLabel_ok.1 h
  exact ⟨htracks, sound_label name⟩

theorem ensures_goTo (name : String) :
    context.Ensures (goTo name).named (context.Sound blocks) := by
  apply ensures_named
  intro progress code after htracks h
  obtain ⟨rfl, rfl⟩ := goTo_ok.1 h
  exact ⟨htracks, sound_goto name⟩

variable (hmoves : context.Moves) (hfits : context.Fits scopes blocks)

include hmoves hfits

theorem ensures_close : context.Ensures close.named (context.Sound blocks) := by
  apply ensures_named
  intro progress code after htracks h
  obtain ⟨rfl, rfl⟩ := close_ok.1 h
  exact ⟨htracks.idle, sound_ofCalls hfits hmoves _ htracks.closing⟩

theorem ensures_start (label : Uid) (name : String) :
    context.Ensures (Noting.start label name).named (context.Sound blocks) := by
  apply ensures_named
  intro progress code after htracks h
  rcases start_ok h with ⟨_, rfl, rfl⟩ | ⟨_, _, rfl, rfl⟩
  · exact ⟨htracks, .nil⟩
  · refine ⟨htracks.entered label name, sound_ofCalls hfits hmoves _ ?_⟩
    exact List.forall_mem_append.2 ⟨htracks.closing, htracks.opening label⟩

theorem ensures_endLoop (entry : Option (Uid × String)) :
    context.Ensures (endLoop entry).named (context.Sound blocks) := by
  cases entry with
  | none => exact ensures_close hmoves hfits
  | some entry => exact ensures_start hmoves hfits entry.1 entry.2

theorem ensures_abort : context.Ensures (abort none).named (context.Sound blocks) := by
  apply ensures_named
  intro progress code after htracks h
  obtain ⟨label, name, _, rfl, rfl⟩ := abort_ok h
  refine ⟨htracks.idle, ?_⟩
  rw [NotedCode.named, List.flatMap_append]
  exact (sound_ofCalls hfits hmoves _ htracks.aborting).append (sound_goto name)

theorem ensures_closeIf (closeSection : Bool) : context.Ensures
    (if closeSection then close.named else Pure.pure []) (context.Sound blocks) := by
  cases closeSection with
  | false => exact .pure .nil
  | true => exact ensures_close hmoves hfits

omit hmoves hfits

/-- A branch leaves the tracker as it was, and gives the one it has come to. -/
theorem ensures_branch (hmoves : context.Moves) (hfits : context.Fits scopes blocks)
    (closeSection : Bool) {naming : Noting (List NamedCode)}
    (h : context.Ensures naming (context.Sound blocks)) :
    context.Ensures (namedBranch closeSection naming)
      (fun result => context.Sound blocks result.1 ∧ context.Tracks result.2) := by
  refine ensures_tracker.bind fun before hbefore => ?_
  refine (h.append (ensures_closeIf hmoves hfits closeSection)).bind fun code hcode => ?_
  refine ensures_tracker.bind fun after hafter => ?_
  exact (ensures_setTracker hbefore).bind fun _ _ => .pure ⟨hcode, hafter⟩

end Operations

/-! ## Assignments -/

open Noting

theorem Shows.words {expression : Expression} (h : context.Shows scopes blocks)
    (hsees : context.definitions.Sees scopes expression.named) :
    context.Ensures (attempt (expression.words context.definitions)) (context.Reads blocks) :=
  (ensures_attempt _).mono fun _ hwords =>
    h.reads hsees (Expression.words_among context.definitions expression hwords)

/-- Wherever the declarations in sight are shown, the targets and values denote them. -/
private theorem reads_pairs (pairs : List AssignmentPair)
    (hsees : ∀ pair ∈ pairs, context.definitions.Sees scopes (pair.lhs.named ++ pair.rhs.named))
    {words : List (List Word × List Word)}
    (h : pairWords context.definitions pairs = .ok words) :
    ∀ pair ∈ words, ∀ blocks, context.Shows scopes blocks →
      context.Reads blocks pair.1 ∧ context.Reads blocks pair.2 := by
  induction pairs generalizing words with
  | nil =>
    cases h
    exact List.forall_mem_nil _
  | cons pair rest ih =>
    obtain ⟨hpair, hothers⟩ := List.forall_mem_cons.1 hsees
    obtain ⟨target, htarget, h⟩ := ok_of_bind h
    obtain ⟨value, hvalue, h⟩ := ok_of_bind h
    obtain ⟨others, hrest, h⟩ := ok_of_bind h
    cases h
    refine List.forall_mem_cons.2 ⟨fun blocks hshows => ⟨?_, ?_⟩, ih hothers hrest⟩
    · exact hshows.reads (fun uid name hmem => hpair uid name (List.mem_append_left _ hmem))
        (Expression.words_among context.definitions pair.lhs htarget)
    · exact hshows.reads (fun uid name hmem => hpair uid name (List.mem_append_right _ hmem))
        (Expression.words_among context.definitions pair.rhs hvalue)

/-- The block of some temporaries. -/
private def temporaries (numbers : List Nat) : Block :=
  numbers.map fun number => (temporaryName number, .temporary number)

private theorem hosts_temporary {numbers : List Nat} (hnodup : numbers.Nodup) {number : Nat}
    (hnumber : number ∈ numbers) :
    Blocks.Hosts (temporaries numbers :: blocks) (temporaryName number) (.temporary number)
      (Declared.temporary number).Rivals := by
  refine .here (List.mem_map.2 ⟨number, hnumber, rfl⟩) ?_
  intro other hother
  have hinjective : Function.Injective Declared.temporary := fun _ _ h => by injection h
  have hdistinct : (Block.named (temporaries numbers) (temporaryName number)).Nodup := by
    have hsublist : (Block.named (temporaries numbers) (temporaryName number)).Sublist
        ((temporaries numbers).map (·.2)) := List.filter_sublist.map _
    refine hsublist.nodup ?_
    rw [temporaries, List.map_map]
    exact hnodup.map hinjective
  -- Another temporary of the name would have another number.
  obtain ⟨hne, hmem⟩ := (List.Nodup.mem_erase_iff hdistinct).1 hother
  obtain ⟨found, _, hfound⟩ := List.mem_map.1 (Block.mem_named.1 hmem)
  obtain ⟨hname, rfl⟩ := Prod.mk.inj hfound
  exact (hne (congrArg _ (temporaryName_injective hname))).elim

private theorem Shows.temporaries (h : context.Shows scopes blocks) (numbers : List Nat) :
    context.Shows scopes (temporaries numbers :: blocks) := by
  refine h.inside fun entry hmem => ?_
  obtain ⟨number, _, rfl⟩ := List.mem_map.1 hmem
  exact ⟨rfl, by simp⟩

/-- The values are read while the temporaries are declared one by one. -/
private theorem hosted_values (pairs : List (Nat × List Word × List Word)) (numbers : List Nat)
    {rest : List NamedCode} (h : context.Shows scopes blocks)
    (hreads : ∀ pair ∈ pairs, ∀ blocks, context.Shows scopes blocks →
      context.Reads blocks pair.2.2)
    (hrest : NamedCode.Hosted context.definitions context.strategy
      (temporaries ((pairs.map (·.1)).reverse ++ numbers) :: blocks) rest) :
    NamedCode.Hosted context.definitions context.strategy (temporaries numbers :: blocks)
      (pairs.map (fun (number, _, value) =>
        .declare (.text (temporaryName number ++ " := ") :: value) (temporaryName number)
          (.temporary number)) ++ rest) := by
  induction pairs generalizing numbers with
  | nil => exact hrest
  | cons pair others ih =>
    obtain ⟨hvalue, hothers⟩ := List.forall_mem_cons.1 hreads
    rw [List.map_cons, List.cons_append]
    refine ((hvalue _ (h.temporaries numbers)).text _).declare ?_
    refine ih (pair.1 :: numbers) hothers ?_
    simpa using hrest

private theorem sound_targets (pairs : List (Nat × List Word × List Word)) (numbers : List Nat)
    (h : context.Shows scopes blocks) (hnodup : numbers.Nodup)
    (hnumbers : ∀ pair ∈ pairs, pair.1 ∈ numbers)
    (hreads : ∀ pair ∈ pairs, ∀ blocks, context.Shows scopes blocks →
      context.Reads blocks pair.2.1) :
    context.Sound (temporaries numbers :: blocks)
      (pairs.map fun (number, target, _) =>
        .line (target ++ [.text " = ", .own (temporaryName number) (.temporary number)])) := by
  refine sound_all pairs fun pair hmem => Reads.line ?_
  have htarget := hreads pair hmem _ (h.temporaries numbers)
  exact htarget.append ((reads_nil.own (hosts_temporary hnodup (hnumbers pair hmem))).text " = ")

theorem sound_nameSimultaneous (h : context.Shows scopes blocks) (first : Nat)
    {pairs : List (List Word × List Word)}
    (hreads : ∀ pair ∈ pairs, ∀ blocks, context.Shows scopes blocks →
      context.Reads blocks pair.1 ∧ context.Reads blocks pair.2) :
    context.Sound blocks [nameSimultaneous first pairs] := by
  let numbered := pairs.zipIdx.map fun entry => (first + entry.2, entry.1)
  have hnodup : (numbered.map (·.1)).Nodup := by
    have hnumbers : numbered.map (·.1) = (pairs.zipIdx.map (·.2)).map (first + ·) := by
      simp only [numbered, List.map_map, Function.comp_def]
    rw [hnumbers, List.zipIdx_map_snd]
    exact List.Nodup.map (fun _ _ h => Nat.add_left_cancel h) List.nodup_range'
  have hpairs : ∀ pair ∈ numbered, ∀ blocks, context.Shows scopes blocks →
      context.Reads blocks pair.2.1 ∧ context.Reads blocks pair.2.2 := by
    intro pair hmem
    obtain ⟨⟨source, index⟩, hsource, rfl⟩ := List.mem_map.1 hmem
    exact hreads source (List.fst_mem_of_mem_zipIdx hsource)
  have hmem : ∀ pair ∈ numbered, pair.1 ∈ (numbered.map (·.1)).reverse ++ [] := by
    intro pair hmem
    rw [List.append_nil, List.mem_reverse]
    exact List.mem_map_of_mem hmem
  have htargets := sound_targets numbered ((numbered.map (·.1)).reverse ++ []) h
    (by simpa using hnodup) hmem (fun pair hmem blocks hshows => (hpairs pair hmem blocks hshows).1)
  exact sound_block (hosted_values numbered [] h
    (fun pair hmem blocks hshows => (hpairs pair hmem blocks hshows).2) htargets.hosted)

theorem ensures_assign (h : context.Shows scopes blocks) (pairs : List AssignmentPair)
    (hsees : ∀ pair ∈ pairs, context.definitions.Sees scopes (pair.lhs.named ++ pair.rhs.named)) :
    context.Ensures (do nameAssign (← attempt (pairWords context.definitions pairs)))
      (context.Sound blocks) := by
  refine (ensures_attempt _).bind fun words hwords => ?_
  have hreads := reads_pairs pairs hsees hwords
  unfold nameAssign
  split
  · obtain ⟨htarget, hvalue⟩ := hreads _ List.mem_cons_self blocks h
    exact .pure (Reads.line (htarget.append (hvalue.text " = ")))
  · exact (ensures_takeTemporaries _).bind fun first _ =>
      .pure (sound_nameSimultaneous h first hreads)

/-! ## Declarations -/

/-- Behind the code a block fits the scopes, and the names in what comes then count from there. -/
def Declares (context : FunctionContext) (scopes : Scopes) (inner : Block) (blocks : Blocks)
    (code : List NamedCode) : Prop :=
  ∃ block, context.Fits scopes (block :: blocks) ∧ ∀ rest,
    NamedCode.Hosted context.definitions context.strategy (block :: blocks) rest →
      NamedCode.Hosted context.definitions context.strategy (inner :: blocks) (code ++ rest)

theorem Fits.declares_nil (h : context.Fits scopes (inner :: blocks)) :
    context.Declares scopes inner blocks [] :=
  ⟨inner, h, fun _ hrest => hrest⟩

/-- A variable that is declared and then used in a line without effect. -/
theorem Fits.declares_cons {after : Scopes} {words : List Word} {code : List NamedCode}
    (h : context.Fits scopes (inner :: blocks)) (definition : Definition)
    (hfind : context.definitions.find? definition.uid = some definition)
    (hfresh : scopes.Fresh definition.name)
    (hvariable : variableOf context.strategy definition = .source definition.uid)
    (hwords : context.Reads (inner :: blocks) words)
    (hcode : context.Declares after ((definition.name, .source definition.uid) :: inner) blocks
      code) :
    context.Declares after inner blocks
      ([.declare words definition.name (.source definition.uid),
        blankLine definition.name (.source definition.uid)] ++ code) := by
  obtain ⟨block, hfits, hrest⟩ := hcode
  refine ⟨block, hfits, fun rest hhosted => hwords.declare ?_⟩
  have hadd := h.add definition hfind hfresh hvariable
  obtain ⟨found, hfound, _, hhosts⟩ :=
    hadd.shows _ _ (scopes.lookup_add_self definition.name definition.uid)
  obtain rfl : definition = found := Option.some.inj (hfind.symm.trans hfound)
  rw [hvariable] at hhosts
  have hown := hhosts.mono fun other hother => hother.1
  exact (Reads.line ((reads_nil.own hown).text "_ = ")).followed (hrest rest hhosted)

theorem ensures_bindings (bindings : List VariableDecl) (h : context.Fits scopes (inner :: blocks))
    (htakes : scopes.Takes context.definitions (fun _ => .bound) bindings) :
    context.Ensures (nameBindings context.definitions bindings)
      (context.Declares (scopes.addAll bindings) inner blocks) := by
  induction bindings generalizing scopes inner with
  | nil => exact .pure h.declares_nil
  | cons decl rest ih =>
    obtain ⟨hsees, hfresh, hfind, htakes⟩ := htakes
    rw [nameBindings]
    cases hvalue : decl.value with
    | none => exact ensures_throw _ _
    | some value =>
      refine (h.shows.words (hsees value hvalue)).bind fun words hwords => ?_
      have hadd := h.add ⟨decl.uid, decl.name, .bound, decl.location⟩ hfind hfresh rfl
      refine (ih hadd htakes).bind fun code hcode => .pure ?_
      exact h.declares_cons ⟨decl.uid, decl.name, .bound, decl.location⟩ hfind hfresh rfl
        (hwords.text _) hcode

/-! ## Statements -/

mutual

theorem ensures_statement (hmoves : context.Moves) (targets : List String) (statement : Statement)
    {scopes : Scopes} {blocks : Blocks} (hfits : context.Fits scopes blocks)
    (hscoped : statement.Scoped context.definitions scopes) :
    context.Ensures (nameStatement context.definitions targets statement)
      (context.Sound blocks) := by
  cases statement with
  | labeled mark label body =>
    have hbody := ensures_statements hmoves targets body hfits hscoped
    rw [nameStatement]
    refine .append ?_ ((ensures_declareLabel label.name).append
      ((ensures_start hmoves hfits label.uid label.name).append hbody))
    split
    · exact ensures_close hmoves hfits
    · exact .pure .nil
  | whileDo mark condition body =>
    obtain ⟨hcondition, hbody⟩ := hscoped
    have hbody := ensures_statements hmoves targets body hfits.nest hbody
    rw [nameStatement]
    refine (hfits.nest.shows.words hcondition).bind fun words hwords => ?_
    refine ensures_tracker.bind fun entry _ => ?_
    have hcheck : context.Sound ([] :: blocks) [branchUnless words [.line [.text "break"]]] :=
      .unless hwords (Reads.line (reads_nil.text "break"))
    refine (Ensures.append (.pure hcheck)
      (hbody.append (ensures_endLoop hmoves hfits.nest entry.label))).bind fun code hcode => ?_
    refine ensures_tracker.bind fun after _ => ?_
    exact (ensures_attempt _).bind fun _ _ => .pure hcode.loop
  | ifElse mark condition yes no =>
    obtain ⟨hcondition, hyes, hno⟩ := hscoped
    have hyes := ensures_statements hmoves targets yes hfits.nest.nest hyes
    have hno := ensures_statements hmoves targets no hfits.nest.nest hno
    rw [nameStatement]
    refine (hfits.nest.shows.words hcondition).bind fun words hwords => ?_
    refine (ensures_branch hmoves hfits.nest.nest _ hyes).bind fun (yes, yesTracker) hyes => ?_
    refine (ensures_branch hmoves hfits.nest.nest _ hno).bind fun (no, noTracker) hno => ?_
    refine (ensures_attempt _).bind fun _ _ => ?_
    refine (ensures_setTracker hyes.2).bind fun _ _ => .pure ?_
    exact .branch reads_nil hwords hyes.1 hno.1
  | either mark cases =>
    rw [nameStatement]
    refine (ensures_cases hmoves targets cases _ none (by simp) hfits.nest hscoped).bind
      fun (bodies, first) h => ?_
    have hswitch : context.Ensures (do
        setImports fun imports => { imports with rand := true }
        pure [NamedCode.switch ("rand.Intn(" ++ Nat.repr cases.length ++ ")") bodies])
        (context.Sound blocks) :=
      (ensures_setImports _).bind fun _ _ => .pure (sound_switch _ h.1)
    cases first with
    | none => exact hswitch
    | some first => exact (ensures_setTracker (h.2 first rfl)).bind fun _ _ => hswitch
  | assign mark pairs => exact ensures_assign hfits.shows pairs hscoped
  | leave mark => exact (ensures_close hmoves hfits).append (ensures_emitLine "return")
  | skip mark => exact .pure .nil
  | call mark target arguments =>
    rw [nameStatement]
    refine (ensures_attempt _).bind fun texts htexts => ?_
    have hamong := Expression.listWords_among context.definitions arguments htexts
    have htexts : ∀ words ∈ texts, context.Reads blocks words :=
      fun words hmem => hfits.shows.reads hscoped (hamong words hmem)
    have hself := hfits.relied _ _ .self
    have harguments := Reads.listed (List.forall_mem_cons.2 ⟨reads_nil.own hself, htexts⟩)
    refine (ensures_close hmoves hfits).append (.pure (Reads.line ?_))
    exact (harguments.append (reads_nil.text ")")).text _
  | macroCall mark target arguments => exact ensures_throw _ _
  | withDo mark bindings body =>
    obtain ⟨hbindings, hbody⟩ := hscoped
    rw [nameStatement]
    have hinner : context.Ensures (nameBindings context.definitions bindings ++
        nameStatements context.definitions targets body)
        (NamedCode.Hosted context.definitions context.strategy ([] :: blocks)) := by
      refine (ensures_bindings bindings hfits.enter hbindings).bind fun code hcode => ?_
      obtain ⟨block, hblock, hdeclares⟩ := hcode
      refine (ensures_statements hmoves targets body hblock hbody).bind fun rest hrest => .pure ?_
      exact hdeclares rest hrest.hosted
    exact hinner.bind fun inner hinner => .pure (sound_block hinner)
  | print mark value =>
    rw [nameStatement]
    refine (hfits.shows.words hscoped).bind fun words hwords => ?_
    refine (ensures_setImports _).bind fun _ _ => .pure (Reads.line ?_)
    exact (hwords.append (reads_nil.text ")")).text _
  | assert mark value =>
    rw [nameStatement]
    refine (hfits.shows.words hscoped).bind fun words hwords => .pure ?_
    exact .unless hwords (Reads.line (reads_nil.text _))
  | await mark value =>
    rw [nameStatement]
    refine (hfits.shows.words hscoped).bind fun words hwords => ?_
    refine (ensures_branch hmoves hfits.nest.nest false
      (ensures_abort hmoves hfits.nest.nest)).bind fun (retry, after) h => .pure ?_
    exact .unless hwords h.1
  | goto mark target =>
    rw [nameStatement]
    refine (ensures_close hmoves hfits).append ?_
    split
    · exact ensures_emitLine "return"
    · exact ensures_goTo target

theorem ensures_statements (hmoves : context.Moves) (targets : List String)
    (statements : List Statement) {scopes : Scopes} {blocks : Blocks}
    (hfits : context.Fits scopes blocks)
    (hscoped : Statement.ListScoped context.definitions scopes statements) :
    context.Ensures (nameStatements context.definitions targets statements)
      (context.Sound blocks) := by
  cases statements with
  | nil => exact .pure .nil
  | cons statement rest =>
    exact (ensures_statement hmoves targets statement hfits hscoped.1).append
      (ensures_statements hmoves targets rest hfits hscoped.2)

theorem ensures_cases (hmoves : context.Moves) (targets : List String)
    (cases : List (List Statement)) (closeSection : Bool) (first : Option Tracker)
    (hfirst : ∀ tracker, first = some tracker → context.Tracks tracker)
    {scopes : Scopes} {blocks : Blocks} (hfits : context.Fits scopes blocks)
    (hscoped : Statement.CasesScoped context.definitions scopes cases) :
    context.Ensures (nameCases context.definitions targets closeSection first cases)
      (fun result => (∀ body ∈ result.1, context.Sound blocks body) ∧
        ∀ tracker, result.2 = some tracker → context.Tracks tracker) := by
  cases cases with
  | nil => exact .pure ⟨List.forall_mem_nil _, hfirst⟩
  | cons body rest =>
    obtain ⟨hbody, hrest⟩ := hscoped
    rw [nameCases]
    refine (ensures_branch hmoves hfits closeSection
      (ensures_statements hmoves targets body hfits hbody)).bind fun (code, tracker) h => ?_
    have hothers (first : Tracker) (hfirst : context.Tracks first) : context.Ensures (do
        let (codes, first) ← nameCases context.definitions targets closeSection (some first) rest
        pure (code :: codes, first)) (fun result =>
          (∀ body ∈ result.1, context.Sound blocks body) ∧
            ∀ tracker, result.2 = some tracker → context.Tracks tracker) := by
      refine (ensures_cases hmoves targets rest closeSection (some first) (by simpa using hfirst)
        hfits hrest).bind fun (codes, first) h' => .pure ⟨?_, h'.2⟩
      exact List.forall_mem_cons.2 ⟨h.1, h'.1⟩
    cases first with
    | none => exact hothers tracker h.2
    | some first => exact (ensures_attempt _).bind fun _ _ => hothers first (hfirst first rfl)

end

end FunctionContext

end PlusCalGo.Go
