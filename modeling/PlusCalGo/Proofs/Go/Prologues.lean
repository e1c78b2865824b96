import PlusCalGo.Proofs.Go.Guards
import PlusCalGo.Proofs.Names.Spelling

/-!
# Prologues of functions

A function begins with the declarations of its copies of globals and of its local variables. They
are lines alone, and no path comes back to them: they run before any section has been opened, so
with nothing held and no copy loaded. An initial value reads the variables that it names there,
global variables included.
-/

namespace PlusCalGo

namespace Go

variable {κ : Type}

/-! ## The outermost code of a point -/

/-- The code after the block that is being run. -/
def Frame.code : Frame κ → List (Code κ)
  | .rest code => code
  | .again _ after => after

/-- What is left of the code of the function itself, under the blocks that are being run. -/
def outermost (code : List (Code κ)) : List (Frame κ) → List (Code κ)
  | [] => code
  | frame :: frames => outermost frame.code frames

def Point.outer (point : Point κ) : List (Code κ) := outermost point.code point.frames

private theorem outermost_tail (first : Code κ) (rest : List (Code κ)) (frames : List (Frame κ)) :
    outermost rest frames <:+ outermost (first :: rest) frames := by
  cases frames with
  | nil => exact List.suffix_cons first rest
  | cons frame frames => exact List.suffix_refl _

private theorem outermost_leaveLoop {frames : List (Frame κ)} {after : Point κ}
    (h : leaveLoop frames = some after) (code : List (Code κ)) :
    after.outer <:+ outermost code frames := by
  induction frames generalizing code with
  | nil => cases h
  | cons frame frames ih =>
    cases frame with
    | rest inner => exact ih h inner
    | again inner others =>
      cases h
      exact List.suffix_refl _

mutual

private theorem outer_seek {name : String} (code : Code κ) {rest : List (Code κ)}
    {frames : List (Frame κ)} {point : Point κ} (h : code.seek name rest frames = some point) :
    point.outer <:+ outermost (code :: rest) frames := by
  have hrest := outermost_tail code rest frames
  cases code with
  | line text => cases h
  | goto other => cases h
  | leaf content => cases h
  | label other =>
    rw [Code.seek] at h
    split at h
    · rename_i hname
      cases h
      exact List.suffix_refl _
    · cases h
  | branch condition yes no =>
    rcases Option.or_eq_some_iff.1 h with h | ⟨_, h⟩
    · exact (outer_listSeek yes h).trans hrest
    · exact (outer_listSeek no h).trans hrest
  | loop body => exact (outer_listSeek body h).trans hrest
  | switch subject cases => exact (outer_casesSeek cases h).trans hrest
  | block body => exact (outer_listSeek body h).trans hrest

/-- A jump into code leads no further up than where the code begins. -/
private theorem outer_listSeek {name : String} (code : List (Code κ)) {frames : List (Frame κ)}
    {point : Point κ} (h : Code.listSeek name frames code = some point) :
    point.outer <:+ outermost code frames := by
  cases code with
  | nil => cases h
  | cons first rest =>
    rcases Option.or_eq_some_iff.1 h with h | ⟨_, h⟩
    · exact outer_seek first h
    · exact (outer_listSeek rest h).trans (outermost_tail first rest frames)

private theorem outer_casesSeek {name : String} (cases : List (List (Code κ)))
    {frame : Frame κ} {frames : List (Frame κ)} {point : Point κ}
    (h : Code.casesSeek name (frame :: frames) cases = some point) :
    point.outer <:+ outermost frame.code frames := by
  cases cases with
  | nil => cases h
  | cons body rest =>
    rcases Option.or_eq_some_iff.1 h with h | ⟨_, h⟩
    · exact outer_listSeek body h
    · exact outer_casesSeek rest h

end

/-! ## Paths through the lines a body begins with -/

section Lines

variable {texts : List String} {rest : List (Code κ)} {lands : String → Prop}

private theorem listSeek_lines (name : String) :
    Code.listSeek name [] (texts.map .line ++ rest) = Code.listSeek name [] rest := by
  induction texts with
  | nil => rfl
  | cons text texts ih => exact ih

private theorem outer_next {first : Code κ} {code : List (Code κ)} {frames : List (Frame κ)}
    (h : (Point.mk (first :: code) frames).outer <:+ rest) : outermost code frames <:+ rest :=
  (outermost_tail first code frames).trans h

/-- Behind the lines, a step stays behind them. -/
private theorem outer_step {leaf : Option κ} {before after : Point κ}
    (h : Step lands (texts.map .line ++ rest) before leaf after)
    (hbefore : before.outer <:+ rest) : after.outer <:+ rest := by
  cases h with
  | line | label | leaf | yes | no | loop | switch | block =>
    have hnext := outer_next hbefore
    exact hnext
  | «break» hleave => exact (outermost_leaveLoop hleave _).trans hbefore
  | jump _ hseek =>
    rw [listSeek_lines] at hseek
    exact outer_listSeek rest hseek
  | rest | again => exact hbefore

/-- A path is on its way through the lines with nothing passed, or it is behind them for good. -/
private theorem path_lines {passed : List κ} {point : Point κ}
    (h : Path lands (texts.map .line ++ rest) passed point) :
    passed = [] ∧ (∃ left : List String, left <:+ texts ∧ point = ⟨left.map .line ++ rest, []⟩) ∨
      point.outer <:+ rest := by
  induction h with
  | start => exact .inl ⟨rfl, texts, List.suffix_refl _, rfl⟩
  | step _ hstep ih =>
    rcases ih with ⟨rfl, left, hleft, rfl⟩ | houter
    · cases left with
      | nil => exact .inr (outer_step hstep (List.suffix_refl _))
      | cons text left =>
        have htail := (List.suffix_cons text left).trans hleft
        cases hstep with
        | line => exact .inl ⟨rfl, left, htail, rfl⟩
        | «break» hleave => cases hleave
    · exact .inr (outer_step hstep houter)

/-- Every line is come to with nothing passed. -/
private theorem path_of_suffix (hplain : ∀ text ∈ texts, PlainLine text) {left : List String}
    (hleft : left <:+ texts) :
    Path lands (texts.map .line ++ rest) [] ⟨left.map .line ++ rest, []⟩ := by
  obtain ⟨taken, rfl⟩ := hleft
  induction taken using List.reverseRecOn generalizing left with
  | nil => exact .start
  | append_singleton taken text ih =>
    rw [List.append_assoc] at hplain ⊢
    obtain ⟨hreturn, hbreak⟩ := hplain text (by simp)
    exact .step (ih hplain) (.line hreturn hbreak)

/-- In front of the end of the lines, a path runs through them for the first and only time, and has
passed nothing. -/
theorem path_lines_iff (hplain : ∀ text ∈ texts, PlainLine text) {passed : List κ}
    {point : Point κ} :
    Path lands (texts.map .line ++ rest) passed point ∧ rest.length < point.outer.length ↔
      passed = [] ∧ ∃ left : List String,
        left ≠ [] ∧ left <:+ texts ∧ point = ⟨left.map .line ++ rest, []⟩ := by
  constructor
  · rintro ⟨hpath, hfront⟩
    rcases path_lines hpath with ⟨hpassed, left, hleft, rfl⟩ | houter
    · refine ⟨hpassed, left, ?_, hleft, rfl⟩
      rintro rfl
      exact absurd hfront (Nat.lt_irrefl _)
    · exact absurd houter.length_le (Nat.not_le.2 hfront)
  · rintro ⟨rfl, left, hne, hleft, rfl⟩
    refine ⟨path_of_suffix hplain hleft, ?_⟩
    have hpositive := List.length_pos_iff.2 hne
    rw [Point.outer, outermost, List.length_append, List.length_map]
    omega

end Lines

/-! ## The lines of a prologue -/

/-- The lines that declare a variable of a function. -/
def declareLines (name declaration : String) : List String := [declaration, "_ = " ++ name]

def copyLines (decl : VariableDecl) : List String :=
  declareLines decl.name (Declaration.zero decl.name decl.resource.goType).render

/-- A local variable is declared with these words. -/
def localLines (entry : VariableDecl × List Word) : List String :=
  declareLines entry.1.name (Word.spell entry.2)

end Go

/-- The identifiers in the initial value, with their names. -/
def VariableDecl.named (decl : VariableDecl) : List (Uid × String) :=
  match decl.value with
  | some value => value.named
  | none => []

namespace Go

theorem identifiers_declarationWords {definitions : Definitions} {decl : VariableDecl}
    {words : List Word} (h : declarationWords definitions decl = .ok words) :
    Word.identifiers words = decl.named := by
  unfold declarationWords at h
  unfold VariableDecl.named
  cases hvalue : decl.value with
  | none =>
    rw [hvalue] at h
    cases h
    rfl
  | some value =>
    rw [hvalue] at h
    obtain ⟨inner, hinner, h⟩ := ok_of_bind h
    cases h
    rw [Word.identifiers_text]
    exact Expression.identifiers_words definitions value hinner

theorem declarationWords_of_declarationOf {definitions : Definitions} {decl : VariableDecl}
    {declaration : Declaration} (h : declarationOf definitions decl = .ok declaration) :
    ∃ words, declarationWords definitions decl = .ok words ∧
      Word.spell words = declaration.render := by
  have hspell := spell_declarationWords definitions decl
  rw [h] at hspell
  cases hwords : declarationWords definitions decl with
  | error problem =>
    rw [hwords] at hspell
    cases hspell
  | ok words =>
    rw [hwords] at hspell
    exact ⟨words, rfl, Except.ok.inj hspell⟩

section Functions

open Noting

variable {definitions : Definitions} {progress after : Progress} {code : NotedCode}

private theorem noteDeclare_lines {name : String} {declaration : Declaration}
    (h : noteDeclare name declaration progress = .ok (code, after)) :
    after = progress ∧ code = (declareLines name declaration.render).map .line := by
  simp only [noteDeclare, append_ok, emitLine, emit_ok] at h
  obtain ⟨_, _, _, ⟨rfl, rfl⟩, ⟨rfl, rfl⟩, rfl⟩ := h
  exact ⟨rfl, rfl⟩

private theorem noteCopies_lines {copies : List VariableDecl}
    (h : noteCopies copies progress = .ok (code, after)) :
    after = progress ∧ code = (copies.flatMap copyLines).map .line := by
  induction copies generalizing code with
  | nil =>
    obtain ⟨rfl, rfl⟩ := pure_ok.1 h
    exact ⟨rfl, rfl⟩
  | cons decl rest ih =>
    obtain ⟨front, between, back, hfront, hback, rfl⟩ := append_ok.1 h
    obtain ⟨rfl, rfl⟩ := noteDeclare_lines hfront
    obtain ⟨rfl, rfl⟩ := ih hback
    exact ⟨rfl, by rw [List.flatMap_cons, List.map_append, copyLines]⟩

/-- The words declare the variable, and read what its initial value names. -/
structure DeclaredBy (definitions : Definitions) (entry : VariableDecl × List Word) : Prop where
  spells : ∃ declaration, declarationOf definitions entry.1 = .ok declaration ∧
    Word.spell entry.2 = declaration.render
  reads : Word.identifiers entry.2 = entry.1.named

private theorem noteLocals_lines {locals : List VariableDecl}
    (h : noteLocals definitions locals progress = .ok (code, after)) :
    ∃ entries : List (VariableDecl × List Word), entries.map (·.1) = locals ∧
      (∀ entry ∈ entries, DeclaredBy definitions entry) ∧
      after = progress ∧ code = (entries.flatMap localLines).map .line := by
  induction locals generalizing code with
  | nil =>
    obtain ⟨rfl, rfl⟩ := pure_ok.1 h
    exact ⟨[], rfl, List.forall_mem_nil _, rfl, rfl⟩
  | cons decl rest ih =>
    simp only [noteLocals, bind_ok, attempt_ok] at h
    obtain ⟨declaration, _, ⟨hdeclaration, rfl⟩, h⟩ := h
    obtain ⟨front, between, back, hfront, hback, rfl⟩ := append_ok.1 h
    obtain ⟨words, hwords, hspell⟩ := declarationWords_of_declarationOf hdeclaration
    obtain ⟨rfl, rfl⟩ := noteDeclare_lines hfront
    obtain ⟨entries, rfl, hentries, rfl, rfl⟩ := ih hback
    have hdeclares : DeclaredBy definitions (decl, words) :=
      ⟨⟨declaration, hdeclaration, hspell⟩, identifiers_declarationWords hwords⟩
    refine ⟨(decl, words) :: entries, rfl, List.forall_mem_cons.2 ⟨hdeclares, hentries⟩, rfl, ?_⟩
    rw [List.flatMap_cons, List.map_append, localLines, hspell]

private theorem plainLine_render (declaration : Declaration) :
    PlainLine declaration.render := by
  cases declaration <;> exact plainLine_of_mem ' ' (by simp [Declaration.render]) (by decide)

private theorem plainLine_declares {declaration : Declaration} {name text : String}
    (h : text ∈ declareLines name declaration.render) : PlainLine text := by
  rcases List.mem_pair.1 h with rfl | rfl
  · exact plainLine_render declaration
  · exact plainLine_of_mem ' ' (by simp) (by decide)

private theorem plainLine_prologue {copies : List VariableDecl}
    {entries : List (VariableDecl × List Word)}
    (hentries : ∀ entry ∈ entries, DeclaredBy definitions entry) {text : String}
    (h : text ∈ copies.flatMap copyLines ++ entries.flatMap localLines) : PlainLine text := by
  rcases List.mem_append.1 h with h | h
  · obtain ⟨decl, _, htext⟩ := List.mem_flatMap.1 h
    exact plainLine_declares htext
  · obtain ⟨entry, hmem, htext⟩ := List.mem_flatMap.1 h
    obtain ⟨declaration, _, hspell⟩ := (hentries entry hmem).spells
    rw [localLines, hspell] at htext
    exact plainLine_declares htext

/-- The code begins with the declarations of the copies and locals. Each of them is run once, before
any call of a section. -/
structure Prologue (definitions : Definitions) (copies locals : List VariableDecl)
    (entries : List (VariableDecl × List Word)) (rest code : List SectionCode) : Prop where
  begins : code = (copies.flatMap copyLines ++ entries.flatMap localLines).map .line ++ rest
  declared : entries.map (·.1) = locals
  declares : ∀ entry ∈ entries, DeclaredBy definitions entry
  runs : ∀ lands passed point,
    Path lands code passed point ∧ rest.length < point.outer.length ↔
      passed = [] ∧ ∃ left : List String, left ≠ [] ∧
        left <:+ copies.flatMap copyLines ++ entries.flatMap localLines ∧
        point = ⟨left.map .line ++ rest, []⟩

private theorem erase_lines (texts : List String) (rest : NotedCode) :
    NotedCode.erase (texts.map .line ++ rest) = texts.map .line ++ rest.erase := by
  induction texts with
  | nil => rfl
  | cons text texts ih => exact congrArg (.line text :: ·) ih

/-- Every function that is made begins with a prologue. -/
theorem FunctionContext.prologue_of_body {context : FunctionContext} {imports needed : Imports}
    {owner : Uid} {locals : List VariableDecl} {body : List Statement}
    {result : FunctionBody SectionCall}
    (h : context.body imports owner locals body = .ok (result, needed)) :
    ∃ entries rest,
      Prologue context.definitions context.copies locals entries rest result.code := by
  obtain ⟨code, last, hnoted, hresult, _⟩ := FunctionContext.noted_of_body h
  obtain ⟨front, _, others, hcopies, hothers, rfl⟩ := append_ok.1 hnoted
  obtain ⟨rfl, rfl⟩ := noteCopies_lines hcopies
  obtain ⟨middle, _, inner, hlocals, _, rfl⟩ := append_ok.1 hothers
  obtain ⟨entries, hdeclared, hentries, rfl, rfl⟩ := noteLocals_lines hlocals
  have hbegins : result.code = (context.copies.flatMap copyLines ++
      entries.flatMap localLines).map .line ++ NotedCode.erase inner := by
    rw [hresult, ← List.append_assoc, ← List.map_append, erase_lines]
  refine ⟨entries, NotedCode.erase inner, hbegins, hdeclared, hentries, ?_⟩
  intro lands passed point
  rw [hbegins]
  exact path_lines_iff fun text htext => plainLine_prologue hentries htext

end Functions

end Go

open Go

/-! ## Reading what a label writes -/

namespace Algorithm

/-- The identifier refers to a global variable that some label writes. -/
def Written (algorithm : Algorithm) (definitions : Definitions) (identifier : Uid) : Prop :=
  ∃ global label, definitions.globalOf? identifier = some global ∧
    algorithm.Touches label true global

theorem reads_written_iff {algorithm : Algorithm} {definitions : Definitions}
    {copies locals : List VariableDecl} {entries : List (VariableDecl × List Word)}
    {rest code : List SectionCode} (h : Prologue definitions copies locals entries rest code) :
    (∃ entry ∈ entries, ∃ identifier ∈ Word.identifiers entry.2,
        algorithm.Written definitions identifier.1) ↔
      ∃ decl ∈ locals, ∃ identifier ∈ decl.named, algorithm.Written definitions identifier.1 := by
  rw [← h.declared]
  constructor
  · rintro ⟨entry, hentry, identifier, hidentifier, hwritten⟩
    rw [(h.declares entry hentry).reads] at hidentifier
    exact ⟨entry.1, List.mem_map_of_mem hentry, identifier, hidentifier, hwritten⟩
  · rintro ⟨decl, hdecl, identifier, hidentifier, hwritten⟩
    obtain ⟨entry, hentry, rfl⟩ := List.mem_map.1 hdecl
    rw [← (h.declares entry hentry).reads] at hidentifier
    exact ⟨entry, hentry, identifier, hidentifier, hwritten⟩

/-- A global variable that some label writes is touched under one group alone. -/
theorem group_of_written {algorithm : Algorithm} {definitions : Definitions}
    {atomicity : Atomicity} (hresolve : algorithm.resolve = .ok definitions)
    (hinfer : algorithm.inferAtomicity definitions = .ok atomicity) {writer global : Uid}
    (hwriter : algorithm.Touches writer true global) :
    ∃ group, ∀ label isWrite, algorithm.Touches label isWrite global →
      atomicity.groups.groupOf? label = some group := by
  obtain ⟨group, _, hall⟩ := guarded_of_touches hresolve hinfer hwriter writer hwriter
  exact ⟨group, hall⟩

/-- The function of every source begins with a prologue, in which nothing is held and no copy is
loaded. It reads a global variable that some label writes exactly if an initial value names one,
although all labels touch that variable under one group. -/
theorem toGo_prologues {algorithm : Algorithm} {definitions : Definitions} {atomicity : Atomicity}
    {settings : Settings} {program : Program} (hresolve : algorithm.resolve = .ok definitions)
    (hinfer : algorithm.inferAtomicity definitions = .ok atomicity)
    (hgo : algorithm.toGo definitions atomicity.groups settings = .ok program) :
    (∀ function ∈ program.functions, ∃ source ∈ algorithm.sources, function.name = source.name ∧
      ∃ entries rest, Prologue definitions (algorithm.copiedGlobals settings.locking) source.locals
        entries rest function.body.code) ∧
    (∀ source ∈ algorithm.sources, ∃ function ∈ program.functions, function.name = source.name ∧
      ∃ entries rest, Prologue definitions (algorithm.copiedGlobals settings.locking) source.locals
        entries rest function.body.code ∧
        ((∃ entry ∈ entries, ∃ identifier ∈ Word.identifiers entry.2,
            algorithm.Written definitions identifier.1) ↔
          ∃ decl ∈ source.locals, ∃ identifier ∈ decl.named,
            algorithm.Written definitions identifier.1)) ∧
    ∀ identifier global, definitions.globalOf? identifier = some global →
      algorithm.Written definitions identifier → ∃ group, ∀ label isWrite,
        algorithm.Touches label isWrite global → atomicity.groups.groupOf? label = some group := by
  obtain ⟨strategy, _, hall⟩ := toGo_makesAll hgo
  refine ⟨?_, ?_, ?_⟩
  · intro function hfunction
    obtain ⟨source, hsource, hname, imports, needed, hbody⟩ := hall.made function hfunction
    obtain ⟨entries, rest, hprologue⟩ := FunctionContext.prologue_of_body hbody
    exact ⟨source, hsource, hname, entries, rest, hprologue⟩
  · intro source hsource
    obtain ⟨function, hfunction, hname, imports, needed, hbody⟩ := hall.makes source hsource
    obtain ⟨entries, rest, hprologue⟩ := FunctionContext.prologue_of_body hbody
    exact ⟨function, hfunction, hname, entries, rest, hprologue, reads_written_iff hprologue⟩
  · rintro identifier global hglobal ⟨other, writer, hother, hwriter⟩
    rw [hglobal] at hother
    cases hother
    exact group_of_written hresolve hinfer hwriter

end Algorithm

/-! ## A local variable that starts as a global

The processes copy the global `x` into a local variable, and write `x` in their step. -/

private def sampling : Algorithm :=
  let mark (number : UInt32) : Mark := ⟨⟨number⟩, .unknown⟩
  ⟨"T", [], [⟨⟨1⟩, "x", some (.number ⟨2⟩ 0), .plain, .unknown⟩], [],
    [⟨⟨3⟩, "P", ⟨4⟩, .range (.number ⟨5⟩ 1) (.number ⟨6⟩ 2),
      [⟨⟨7⟩, "y", some (.identifier ⟨8⟩ "x"), .plain, .unknown⟩],
      [.labeled (mark 9) ⟨⟨10⟩, "a"⟩
        [.assign (mark 11) [⟨.identifier ⟨12⟩ "x", .number ⟨13⟩ 2⟩]]]⟩]⟩

private def samplingDefinitions : Definitions :=
  ⟨[⟨⟨1⟩, "x", .global .plain, .unknown⟩, ⟨⟨4⟩, "self", .processSelf, .unknown⟩,
    ⟨⟨7⟩, "y", .localVariable .plain, .unknown⟩], [(⟨12⟩, ⟨1⟩), (⟨8⟩, ⟨1⟩)]⟩

private def samplingAtomicity : Atomicity :=
  ⟨⟨[(⟨10⟩, ⟨0⟩)], [], [(⟨0⟩, ⟨1⟩)]⟩, ⟨"T", [⟨⟨0⟩, ["P.a"], [], ["x"]⟩], []⟩, []⟩

private def samplingCode : List SectionCode :=
  [.line "var y = x", .line "_ = y", .label "a", .leaf ⟨.inProcess, .acquire, ⟨0⟩⟩, .line "x = 2",
    .leaf ⟨.inProcess, .release, ⟨0⟩⟩]

private def samplingProgram : Program :=
  ⟨"T", "main", .none, [.initialized "x" "0"], .mutexes 1, [⟨"P", [], ⟨samplingCode, []⟩⟩],
    [.range "P" "1" "2"]⟩

private theorem sampling_resolve : sampling.resolve = .ok samplingDefinitions := by cbv

private theorem sampling_infer :
    sampling.inferAtomicity samplingDefinitions = .ok samplingAtomicity := by cbv

private theorem sampling_toGo :
    sampling.toGo samplingDefinitions samplingAtomicity.groups .default = .ok samplingProgram := by
  cbv

private theorem sampling_touches : sampling.Touches ⟨10⟩ true ⟨1⟩ :=
  ⟨⟨some ⟨10⟩, sampling.processes[0].naming sampling.naming, true, ⟨12⟩, "x"⟩, List.mem_cons_self,
    rfl, rfl, by decide⟩

theorem Algorithm.toGo_prologues_sampling :
    sampling.resolve = .ok samplingDefinitions ∧
      sampling.inferAtomicity samplingDefinitions = .ok samplingAtomicity ∧
      sampling.toGo samplingDefinitions samplingAtomicity.groups .default = .ok samplingProgram ∧
      ∃ entries rest, Prologue samplingDefinitions []
          [⟨⟨7⟩, "y", some (.identifier ⟨8⟩ "x"), .plain, .unknown⟩] entries rest samplingCode ∧
        ∃ entry ∈ entries, ∃ identifier ∈ Word.identifiers entry.2,
          sampling.Written samplingDefinitions identifier.1 := by
  refine ⟨sampling_resolve, sampling_infer, sampling_toGo, ?_⟩
  obtain ⟨_, hsources, _⟩ := toGo_prologues sampling_resolve sampling_infer sampling_toGo
  obtain ⟨function, hfunction, _, entries, rest, hprologue, hreads⟩ :=
    hsources sampling.processes[0].source (by simp [Algorithm.sources, sampling])
  rw [List.mem_singleton.1 hfunction] at hprologue
  refine ⟨entries, rest, hprologue, hreads.2 ⟨_, List.mem_cons_self, (⟨8⟩, "x"), ?_⟩⟩
  exact ⟨List.mem_cons_self, ⟨1⟩, ⟨10⟩, by decide, sampling_touches⟩

/-- The path that comes to the line `var y = x` has passed no call, and the label `a` writes `x`. -/
theorem Algorithm.initial_value_unguarded :
    sampling.resolve = .ok samplingDefinitions ∧
      sampling.inferAtomicity samplingDefinitions = .ok samplingAtomicity ∧
      sampling.toGo samplingDefinitions samplingAtomicity.groups .default = .ok samplingProgram ∧
      samplingDefinitions.globalOf? ⟨8⟩ = some ⟨1⟩ ∧ sampling.Touches ⟨10⟩ true ⟨1⟩ ∧
      samplingAtomicity.groups.groupOf? ⟨10⟩ = some ⟨0⟩ ∧
      declarationOf samplingDefinitions ⟨⟨7⟩, "y", some (.identifier ⟨8⟩ "x"), .plain, .unknown⟩ =
        .ok (.initialized "y" "x") ∧
      ∃ function ∈ samplingProgram.functions, function.name = "P" ∧ ∃ rest,
        Go.Path (fun _ => False) function.body.code []
          ⟨.line (Declaration.initialized "y" "x").render :: rest, []⟩ := by
  refine ⟨sampling_resolve, sampling_infer, sampling_toGo, by decide, sampling_touches, by decide,
    rfl, ⟨"P", [], ⟨samplingCode, []⟩⟩, List.mem_singleton_self _, rfl, _, .start⟩

end PlusCalGo
