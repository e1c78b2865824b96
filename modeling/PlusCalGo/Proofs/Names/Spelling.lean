import PlusCalGo.Proofs.Go.Erasure
import PlusCalGo.Proofs.Go.Expansion
import PlusCalGo.Proofs.Names.Lowering

/-!
# Names spell the code

When lowering with remarks goes well, so does lowering with names. Without names its code is the
code with the calls of sections written out.
-/

namespace PlusCalGo.Go

/-! ## Code written out -/

/-- The code with its calls written out. -/
def NotedCode.plain (code : NotedCode) : List PlainCode :=
  Code.listExpand (fun | .call call => call.code | .remark _ => []) code

namespace NotedCode

/-- Calls may be written out with the remarks still there. -/
theorem expand_erase (code : NotedCode) :
    Code.listExpand SectionCall.code code.erase = code.plain := by
  unfold erase plain
  rw [Code.listExpand_listExpand]
  congr 1
  funext note
  cases note with
  | call call => simp [Code.listExpand, Code.expand]
  | remark remark => rfl

theorem plain_append (first second : NotedCode) :
    plain (first ++ second) = first.plain ++ second.plain :=
  Code.listExpand_append _ first second

theorem plain_ofCalls (calls : List SectionCall) :
    NamedCode.listPlain (ofCalls calls).named = (ofCalls calls).plain := by
  induction calls with
  | nil => rfl
  | cons call rest ih =>
    have hnamed : (ofCalls (call :: rest)).named = call.named ++ (ofCalls rest).named := rfl
    have hplain : (ofCalls (call :: rest)).plain = call.code ++ (ofCalls rest).plain := rfl
    rw [hnamed, NamedCode.listPlain_append, SectionCall.plain_named, ih, hplain]

end NotedCode

/-! ## Operations -/

/-- What the second lowering makes, the first one makes too, from the same state. -/
def Mirrors {α β : Type} (values : α → β → Prop) (naming : Noting α) (noting : Noting β) : Prop :=
  ∀ progress value after, noting progress = .ok (value, after) →
    ∃ other, naming progress = .ok (other, after) ∧ values other value

/-- The named code spells the other. -/
def Spells (named : List NamedCode) (noted : NotedCode) : Prop :=
  NamedCode.listPlain named = noted.plain

section Operations

variable {α β γ δ : Type} {values : α → β → Prop}

theorem Mirrors.pure {value : α} {other : β} (h : values value other) :
    Mirrors values (Pure.pure value) (Pure.pure other) := by
  intro progress result after hresult
  obtain ⟨rfl, rfl⟩ := Noting.pure_ok.1 hresult
  exact ⟨value, rfl, h⟩

theorem Mirrors.bind {last : γ → δ → Prop} {first : Noting α} {first' : Noting β}
    {next : α → Noting γ} {next' : β → Noting δ} (hfirst : Mirrors values first first')
    (hnext : ∀ value other, values value other → Mirrors last (next value) (next' other)) :
    Mirrors last (first >>= next) (first' >>= next') := by
  intro progress result after hresult
  obtain ⟨value, between, hvalue, hresult⟩ := Noting.bind_ok.1 hresult
  obtain ⟨other, hother, hsame⟩ := hfirst progress value between hvalue
  obtain ⟨found, hfound, hlast⟩ := hnext other value hsame between result after hresult
  exact ⟨found, Noting.bind_ok.2 ⟨other, between, hother, hfound⟩, hlast⟩

/-- After an operation that both do. -/
theorem Mirrors.next {last : γ → δ → Prop} (first : Noting α) {next : α → Noting γ}
    {next' : α → Noting δ} (hnext : ∀ value, Mirrors last (next value) (next' value)) :
    Mirrors last (first >>= next) (first >>= next') := by
  intro progress result after hresult
  obtain ⟨value, between, hvalue, hresult⟩ := Noting.bind_ok.1 hresult
  obtain ⟨found, hfound, hlast⟩ := hnext value between result after hresult
  exact ⟨found, Noting.bind_ok.2 ⟨value, between, hvalue, hfound⟩, hlast⟩

theorem Mirrors.append {first second : Noting (List NamedCode)} {first' second' : Noting NotedCode}
    (hfirst : Mirrors Spells first first') (hsecond : Mirrors Spells second second') :
    Mirrors Spells (first ++ second) (first' ++ second') := by
  refine hfirst.bind fun front front' hfront => hsecond.bind fun back back' hback => .pure ?_
  rw [Spells, NamedCode.listPlain_append, hfront, hback, NotedCode.plain_append]

theorem Mirrors.after_remark {label? : Option Label} {subject : Subject} {naming : Noting α}
    {next : NotedCode → Noting β} (h : ∀ note : NotedCode, note.plain = [] →
      Mirrors values naming (next note)) :
    Mirrors values naming (Noting.remark label? subject >>= next) := by
  intro progress result after hresult
  obtain ⟨note, between, hnote, hresult⟩ := Noting.bind_ok.1 hresult
  obtain ⟨rfl, rfl⟩ := Noting.remark_ok.1 hnote
  exact h _ rfl _ result after hresult

theorem Mirrors.behind_remark {label? : Option Label} {subject : Subject}
    {naming : Noting (List NamedCode)} {noting : Noting NotedCode}
    (h : Mirrors Spells naming noting) :
    Mirrors Spells naming (Noting.remark label? subject ++ noting) := by
  refine Mirrors.after_remark fun note hnote => ?_
  have hnaming : naming = naming >>= Pure.pure := (bind_pure naming).symm
  rw [hnaming]
  refine h.bind fun code code' hcode => .pure ?_
  rw [Spells, NotedCode.plain_append, hnote]
  exact hcode

theorem Mirrors.behind_arrival (label : Label) {naming : Noting (List NamedCode)}
    {noting : Noting NotedCode} (h : Mirrors Spells naming noting) :
    Mirrors Spells naming (Noting.arrival label ++ noting) := by
  intro progress
  have hremark : Mirrors Spells naming (Noting.remark (some label)
      (.arrives label !progress.tracker.continues label.uid) ++ noting) := h.behind_remark
  exact hremark progress

open Noting

/-- Results that read the same. -/
theorem mirrors_results {read : α → γ} {read' : β → γ} {first : Except Diagnostic α}
    {second : Except Diagnostic β} (h : first.map read = second.map read') :
    Mirrors (fun value other => read value = read' other) (attempt first) (attempt second) := by
  intro progress value after hvalue
  obtain ⟨rfl, rfl⟩ := attempt_ok.1 hvalue
  cases first with
  | error problem => simp [Except.map] at h
  | ok found => exact ⟨found, rfl, Except.ok.inj h⟩

theorem mirrors_attempt {read : α → β} {first : Except Diagnostic α} {second : Except Diagnostic β}
    (h : first.map read = second) :
    Mirrors (fun value other => read value = other) (attempt first) (attempt second) := by
  have hsame : second.map id = second := by cases second <;> rfl
  exact mirrors_results (h.trans hsame.symm)

/-- Code in which only calls have names. -/
theorem mirrors_named {noting : Noting NotedCode}
    (h : ∀ progress code after, noting progress = .ok (code, after) →
      NamedCode.listPlain code.named = code.plain) :
    Mirrors Spells noting.named noting := by
  intro progress code after hcode
  exact ⟨code.named, bind_ok.2 ⟨code, after, hcode, rfl⟩, h progress code after hcode⟩

theorem mirrors_close : Mirrors Spells close.named close := by
  apply mirrors_named
  intro progress code after h
  obtain ⟨rfl, _⟩ := close_ok.1 h
  exact NotedCode.plain_ofCalls _

theorem mirrors_start (label : Uid) (name : String) :
    Mirrors Spells (start label name).named (start label name) := by
  apply mirrors_named
  intro progress code after h
  rcases start_ok h with ⟨_, rfl, _⟩ | ⟨_, _, rfl, _⟩
  · rfl
  · exact NotedCode.plain_ofCalls _

theorem mirrors_endLoop (entry : Option (Uid × String)) :
    Mirrors Spells (endLoop entry).named (endLoop entry) := by
  cases entry with
  | none => exact mirrors_close
  | some entry => exact mirrors_start entry.1 entry.2

theorem mirrors_declareLabel (name : String) :
    Mirrors Spells (declareLabel name).named (declareLabel name) := by
  apply mirrors_named
  intro progress code after h
  obtain ⟨_, rfl, _⟩ := declareLabel_ok.1 h
  rfl

theorem mirrors_goTo (name : String) : Mirrors Spells (goTo name).named (goTo name) := by
  apply mirrors_named
  intro progress code after h
  obtain ⟨rfl, _⟩ := goTo_ok.1 h
  rfl

theorem mirrors_emitLine (text : String) :
    Mirrors Spells (emitLine text).named (emitLine text) := by
  apply mirrors_named
  intro progress code after h
  obtain ⟨rfl, _⟩ := emit_ok.1 h
  simp [NotedCode.named, NotedCode.plain, NamedCode.listPlain, NamedCode.plain, Code.listExpand,
    Code.expand]

/-- The label of the remark does not matter. -/
theorem mirrors_abort (label? : Option Label) :
    Mirrors Spells (abort none).named (abort label?) := by
  intro progress code after h
  obtain ⟨label, name, hlabel, rfl, rfl⟩ := abort_ok h
  have habort : abort none progress = .ok (NotedCode.ofCalls progress.tracker.aborting ++
      [.leaf (.remark ⟨none, none, .retries⟩), .goto name],
      { progress with
        tracker := progress.tracker.idle, targets := name :: progress.targets }) := by
    simp only [abort, hlabel]
  refine ⟨_, bind_ok.2 ⟨_, _, habort, rfl⟩, ?_⟩
  rw [Spells, NotedCode.plain_append, NotedCode.named, List.flatMap_append,
    NamedCode.listPlain_append]
  exact congrArg (· ++ [.goto name]) (NotedCode.plain_ofCalls progress.tracker.aborting)

theorem mirrors_line {words : List Word} {text : String} (h : Word.spell words = text) :
    Mirrors Spells (Pure.pure [.line words]) (emitLine text) := by
  subst h
  exact Mirrors.pure rfl

theorem mirrors_declare {words : List Word} {text name : String} {declared : Declared}
    (h : Word.spell words = text) :
    Mirrors Spells (Pure.pure [.declare words name declared]) (emitLine text) := by
  subst h
  exact Mirrors.pure rfl

/-- Two statements may be put in front one by one. -/
theorem pure_pair_append (first second : NamedCode) (rest : Noting (List NamedCode)) :
    Pure.pure [first, second] ++ rest = Pure.pure [first] ++ (Pure.pure [second] ++ rest) := by
  change (rest >>= fun code => Pure.pure ([first, second] ++ code)) =
    (rest >>= fun code => Pure.pure ([second] ++ code)) >>= fun code => Pure.pure ([first] ++ code)
  simp

theorem mirrors_branch {closeSection : Bool} {naming : Noting (List NamedCode)}
    {noting : Noting NotedCode} (h : Mirrors Spells naming noting) :
    Mirrors (fun named noted => Spells named.1 noted.1 ∧ named.2 = noted.2)
      (namedBranch closeSection naming) (branch closeSection noting) := by
  refine Mirrors.next tracker fun before => ?_
  have hbody : Mirrors Spells (naming ++ if closeSection then close.named else Pure.pure [])
      (noting ++ if closeSection then close else Pure.pure []) := by
    cases closeSection with
    | false => exact h.append (.pure rfl)
    | true => exact h.append mirrors_close
  refine hbody.bind fun code code' hcode => ?_
  refine Mirrors.next tracker fun after => ?_
  exact Mirrors.next (setTracker before) fun _ => .pure ⟨hcode, rfl⟩

end Operations

/-! ## Statements -/

open Noting

theorem spells_remark (note : NotedCode) (hnote : note.plain = []) {named : NamedCode}
    {code : Code Note} (h : Spells [named] [code]) : Spells [named] (note ++ [code]) := by
  rw [Spells, NotedCode.plain_append, hnote]
  exact h

theorem spells_branch {words : List Word} {text : String} {yes no : List NamedCode}
    {yes' no' : NotedCode} (htext : Word.spell words = text) (hyes : Spells yes yes')
    (hno : Spells no no') : Spells [.branch ⟨[], [], words⟩ yes no] [.branch text yes' no'] := by
  unfold Spells at *
  simp only [NamedCode.listPlain, NamedCode.plain, List.nil_append, htext, hyes, hno,
    NotedCode.plain, Code.listExpand, Code.expand, List.append_nil]

theorem spells_unless {words : List Word} {text : String} {code : List NamedCode}
    {code' : NotedCode} (htext : Word.spell words = text) (hcode : Spells code code') :
    Spells [branchUnless words code] [.branch ("!" ++ text) code' []] :=
  spells_branch (by simp [htext]) hcode rfl

theorem spells_loop {body : List NamedCode} {body' : NotedCode} (h : Spells body body') :
    Spells [.loop body] [.loop body'] := by
  unfold Spells at *
  simp only [NamedCode.listPlain, NamedCode.plain, h, NotedCode.plain, Code.listExpand,
    Code.expand, List.append_nil]

theorem spells_block {body : List NamedCode} {body' : NotedCode} (h : Spells body body') :
    Spells [.block body] [.block body'] := by
  unfold Spells at *
  simp only [NamedCode.listPlain, NamedCode.plain, h, NotedCode.plain, Code.listExpand,
    Code.expand, List.append_nil]

private theorem casesExpand_eq_map {κ ι : Type} (write : κ → List (Code ι))
    (cases : List (List (Code κ))) :
    Code.casesExpand write cases = cases.map (Code.listExpand write) := by
  induction cases with
  | nil => rfl
  | cons body rest ih => rw [Code.casesExpand, ih, List.map_cons]

theorem spells_switch (subject : String) {cases : List (List NamedCode)}
    {cases' : List NotedCode} (h : cases.map NamedCode.listPlain = cases'.map NotedCode.plain) :
    Spells [.switch subject cases] [.switch subject cases'] := by
  unfold Spells
  simp only [NamedCode.listPlain, NamedCode.plain, NamedCode.casesPlain_eq_map, h, NotedCode.plain,
    Code.listExpand, Code.expand, casesExpand_eq_map, List.append_nil]
  rfl

private theorem mirrors_pairs (definitions : Definitions) (pairs : List AssignmentPair) :
    Mirrors (fun words texts => words.map (fun (target, value) =>
        (Word.spell target, Word.spell value)) = texts.map Prod.snd)
      (attempt (pairWords definitions pairs)) (attempt (pairTexts definitions pairs)) := by
  intro progress texts after hattempt
  obtain ⟨h, rfl⟩ := attempt_ok.1 hattempt
  suffices hwords : ∃ words, pairWords definitions pairs = .ok words ∧
      words.map (fun (target, value) => (Word.spell target, Word.spell value)) =
        texts.map Prod.snd by
    obtain ⟨words, hwords, hsame⟩ := hwords
    exact ⟨words, attempt_ok.2 ⟨hwords, rfl⟩, hsame⟩
  clear hattempt
  induction pairs generalizing texts with
  | nil =>
    cases h
    exact ⟨[], rfl, rfl⟩
  | cons pair rest ih =>
    obtain ⟨target, htarget, h⟩ := ok_of_bind h
    obtain ⟨value, hvalue, h⟩ := ok_of_bind h
    obtain ⟨others, hothers, h⟩ := ok_of_bind h
    cases h
    obtain ⟨words, hwords, hsame⟩ := ih others hothers
    rw [← Expression.spell_words] at htarget hvalue
    cases hlhs : pair.lhs.words definitions with
    | error problem => simp [hlhs, Except.map] at htarget
    | ok lhs =>
      cases hrhs : pair.rhs.words definitions with
      | error problem => simp [hrhs, Except.map] at hvalue
      | ok rhs =>
        simp only [hlhs, hrhs, Except.map, Except.ok.injEq] at htarget hvalue
        refine ⟨(lhs, rhs) :: words, ?_, by simp [htarget, hvalue, hsame]⟩
        simp [pairWords, hlhs, hrhs, hwords, bind, Except.bind, pure, Except.pure]

private theorem listExpand_lines {ι : Type} (text : ι → String) (items : List ι) :
    Code.listExpand SectionCall.code (items.map fun item => .line (text item)) =
      (items.map fun item => .line (text item) : List PlainCode) := by
  induction items with
  | nil => rfl
  | cons item rest ih =>
    rw [List.map_cons, Code.listExpand, ih]
    rfl

private theorem spells_simultaneous (held : Option LockGroup) (label? : Option Label)
    (first : Nat) {words : List (List Word × List Word)}
    {texts : List (AssignmentPair × String × String)}
    (h : words.map (fun (target, value) => (Word.spell target, Word.spell value)) =
      texts.map Prod.snd) :
    Spells [nameSimultaneous first words] [notedSimultaneous (fun expressions =>
      .leaf (.remark ⟨held, label?, .evaluates expressions⟩)) first texts] := by
  rw [Spells, ← NotedCode.expand_erase, erase_notedSimultaneous, ← h]
  simp only [nameSimultaneous, Lower.simultaneous, NamedCode.listPlain, NamedCode.plain,
    NamedCode.listPlain_append, Code.listExpand, Code.expand, Code.listExpand_append,
    List.append_nil, List.zipIdx_map, List.map_map, Function.comp_def, listExpand_lines]
  refine congrArg (fun code => [Code.block code])
    (congrArg₂ (· ++ ·) (listPlain_map ?_ _) (listPlain_map ?_ _))
  · intro item
    simp [NamedCode.plain, temporaryName, String.append_assoc]
  · intro item
    simp [NamedCode.plain, temporaryName, String.append_assoc]

theorem mirrors_assign (definitions : Definitions) (label? : Option Label)
    (pairs : List AssignmentPair) :
    Mirrors Spells (do nameAssign (← attempt (pairWords definitions pairs)))
      (do noteAssign label? (← attempt (pairTexts definitions pairs))) := by
  refine (mirrors_pairs definitions pairs).bind fun words texts h => ?_
  have hmany : Mirrors Spells (do
      let first ← takeTemporaries words.length
      pure [nameSimultaneous first words]) (do
      let first ← takeTemporaries texts.length
      let held := (← tracker).openGroup
      emit (notedSimultaneous (fun expressions =>
        .leaf (.remark ⟨held, label?, .evaluates expressions⟩)) first texts)) := by
    have hlength : words.length = texts.length := by
      have hlengths := congrArg List.length h
      simpa using hlengths
    rw [hlength]
    refine Mirrors.next (takeTemporaries texts.length) fun first => ?_
    intro progress code after hcode
    obtain ⟨held, between, hheld, hcode⟩ := bind_ok.1 hcode
    obtain ⟨rfl, rfl⟩ := tracker_ok.1 hheld
    obtain ⟨rfl, rfl⟩ := emit_ok.1 hcode
    exact ⟨_, rfl, spells_simultaneous _ label? first h⟩
  rcases words with _ | ⟨⟨target, value⟩, _ | ⟨second, others⟩⟩
  · obtain rfl : texts = [] := by simpa using h.symm
    exact hmany
  · rcases texts with _ | ⟨⟨pair, targetText, valueText⟩, _ | ⟨pair', rest⟩⟩
    · simp at h
    · simp only [List.map_cons, List.map_nil, List.cons.injEq, Prod.mk.injEq, and_true] at h
      refine Mirrors.behind_remark (mirrors_line ?_)
      simp [h.1, h.2, String.append_assoc]
    · simp at h
  · rcases texts with _ | ⟨first, _ | ⟨second', rest⟩⟩
    · simp at h
    · simp at h
    · exact hmany

private theorem mirrors_expression (definitions : Definitions) (expression : Expression) :
    Mirrors (fun words text => Word.spell words = text) (attempt (expression.words definitions))
      (attempt (expression.toGo definitions)) :=
  mirrors_attempt (Expression.spell_words definitions expression)

theorem mirrors_bindings (definitions : Definitions) (label? : Option Label)
    (bindings : List VariableDecl) :
    Mirrors Spells (nameBindings definitions bindings)
      (noteBindings definitions label? bindings) := by
  induction bindings with
  | nil => exact .pure rfl
  | cons decl rest ih =>
    rw [nameBindings, noteBindings]
    cases decl.value with
    | none => intro progress code after h; cases h
    | some value =>
      refine (mirrors_expression definitions value).bind fun words text h => ?_
      rw [pure_pair_append]
      exact .behind_remark ((mirrors_declare (by simp [h])).append
        (.behind_remark ((mirrors_line (by simp)).append ih)))

private theorem mirrors_transfer {target : String} :
    Mirrors Spells (if target = Label.done then (emitLine "return").named else (goTo target).named)
      (if target = Label.done then emitLine "return" else goTo target) := by
  split
  · exact mirrors_emitLine "return"
  · exact mirrors_goTo target

mutual

theorem mirrors_statement (definitions : Definitions) (targets : List String)
    (label? : Option Label) (statement : Statement) :
    Mirrors Spells (nameStatement definitions targets statement)
      (noteStatement definitions targets label? statement) := by
  cases statement with
  | labeled mark label body =>
    have hbody := mirrors_statements definitions targets (some label) body
    have hlabel := ((mirrors_declareLabel label.name).append
      ((mirrors_start label.uid label.name).append hbody)).behind_arrival label
    rw [nameStatement, noteStatement]
    by_cases htarget : label.name ∈ targets
    · simp only [if_pos htarget]
      exact mirrors_close.append hlabel
    · simp only [if_neg htarget]
      exact Mirrors.append (.pure rfl) hlabel
  | whileDo mark condition body =>
    have hbody := mirrors_statements definitions targets label? body
    rw [nameStatement, noteStatement]
    refine (mirrors_expression definitions condition).bind fun words text htext => ?_
    refine Mirrors.next tracker fun entry => ?_
    have hcheck : Mirrors Spells
        (pure [branchUnless words [.line [.text "break"]]])
        (emit (.branch ("!" ++ text) [.line "break"] [])) :=
      .pure (spells_unless htext (by simp [Spells, NamedCode.listPlain, NamedCode.plain,
        NotedCode.plain, Code.listExpand, Code.expand]))
    have hinner := hcheck.append (hbody.append (mirrors_endLoop entry.label))
    refine hinner.behind_remark.bind fun code code' hcode => ?_
    refine Mirrors.next tracker fun after => ?_
    refine Mirrors.next (attempt (after.checkCompatible entry)) fun _ =>
      .pure (spells_loop hcode)
  | ifElse mark condition yes no =>
    have hyes := mirrors_statements definitions targets label? yes
    have hno := mirrors_statements definitions targets label? no
    rw [nameStatement, noteStatement]
    refine (mirrors_expression definitions condition).bind fun words text htext => ?_
    refine .after_remark fun note hnote => ?_
    refine (mirrors_branch hyes).bind fun (yes, yesTracker) (yes', yesTracker') hyes => ?_
    refine (mirrors_branch hno).bind fun (no, noTracker) (no', noTracker') hno => ?_
    obtain ⟨hyes, rfl⟩ := hyes
    obtain ⟨hno, rfl⟩ := hno
    refine Mirrors.next (attempt (yesTracker.checkCompatible noTracker)) fun _ => ?_
    refine Mirrors.next (setTracker yesTracker) fun _ => ?_
    exact .pure (spells_remark note hnote (spells_branch htext hyes hno))
  | either mark cases =>
    have hcases := mirrors_cases definitions targets label?
      (Statement.anyCaseTransfersControl cases) none cases
    rw [nameStatement, noteStatement]
    refine .after_remark fun note hnote => ?_
    refine hcases.bind fun (bodies, first) (bodies', first') h => ?_
    obtain ⟨h, rfl⟩ := h
    have hswitch : Mirrors Spells (do
        setImports fun imports => { imports with rand := true }
        pure [.switch ("rand.Intn(" ++ Nat.repr cases.length ++ ")") bodies]) (do
        setImports fun imports => { imports with rand := true }
        pure (note ++ [.switch ("rand.Intn(" ++ Nat.repr cases.length ++ ")") bodies'])) := by
      refine Mirrors.next (setImports _) fun _ => ?_
      exact .pure (spells_remark note hnote (spells_switch _ h))
    cases first with
    | none => exact hswitch
    | some first => exact Mirrors.next (setTracker first) fun _ => hswitch
  | assign mark pairs => exact mirrors_assign definitions label? pairs
  | leave mark => exact mirrors_close.append (mirrors_emitLine "return")
  | skip mark => exact .pure rfl
  | call mark target arguments =>
    rw [nameStatement, noteStatement]
    refine (mirrors_attempt (Expression.spell_listWords definitions arguments)).bind
      fun words texts h => ?_
    refine mirrors_close.append (.behind_remark (mirrors_line ?_))
    simp [Word.spell_listed, h, String.append_assoc]
  | macroCall mark target arguments => intro progress code after h; cases h
  | withDo mark bindings body =>
    rw [nameStatement, noteStatement]
    refine ((mirrors_bindings definitions label? bindings).append
      (mirrors_statements definitions targets label? body)).bind fun code code' hcode => ?_
    exact .pure (spells_block hcode)
  | print mark value =>
    rw [nameStatement, noteStatement]
    refine (mirrors_expression definitions value).bind fun words text htext => ?_
    refine Mirrors.next (setImports _) fun _ => .behind_remark (mirrors_line ?_)
    simp [htext, String.append_assoc]
  | assert mark value =>
    rw [nameStatement, noteStatement]
    refine (mirrors_expression definitions value).bind fun words text htext => ?_
    refine .behind_remark (.pure (spells_unless htext ?_))
    simp [Spells, NamedCode.listPlain, NamedCode.plain, NotedCode.plain, Code.listExpand,
      Code.expand, htext]
  | await mark value =>
    rw [nameStatement, noteStatement]
    refine (mirrors_expression definitions value).bind fun words text htext => ?_
    refine .after_remark fun note hnote => ?_
    refine (mirrors_branch (mirrors_abort label?)).bind fun (retry, after) (retry', after') h => ?_
    exact .pure (spells_remark note hnote (spells_unless htext h.1))
  | goto mark target => exact mirrors_close.append mirrors_transfer

theorem mirrors_statements (definitions : Definitions) (targets : List String)
    (label? : Option Label) (statements : List Statement) :
    Mirrors Spells (nameStatements definitions targets statements)
      (noteStatements definitions targets label? statements) := by
  cases statements with
  | nil => exact .pure rfl
  | cons statement rest =>
    exact (mirrors_statement definitions targets label? statement).append
      (mirrors_statements definitions targets label? rest)

theorem mirrors_cases (definitions : Definitions) (targets : List String) (label? : Option Label)
    (closeSection : Bool) (first : Option Tracker) (cases : List (List Statement)) :
    Mirrors (fun named noted => named.1.map NamedCode.listPlain = noted.1.map NotedCode.plain ∧
        named.2 = noted.2)
      (nameCases definitions targets closeSection first cases)
      (noteCases definitions targets label? closeSection first cases) := by
  cases cases with
  | nil => exact .pure ⟨rfl, rfl⟩
  | cons body rest =>
    rw [nameCases, noteCases]
    refine (mirrors_branch (mirrors_statements definitions targets label? body)).bind
      fun (code, tracker) (code', tracker') h => ?_
    obtain ⟨h, rfl⟩ := h
    have hrest (first : Option Tracker) : Mirrors (fun named noted =>
        named.1.map NamedCode.listPlain = noted.1.map NotedCode.plain ∧ named.2 = noted.2)
        (do
          let (codes, first) ← nameCases definitions targets closeSection first rest
          pure (code :: codes, first))
        (do
          let (codes, first) ← noteCases definitions targets label? closeSection first rest
          pure (code' :: codes, first)) := by
      refine (mirrors_cases definitions targets label? closeSection first rest).bind
        fun (codes, first) (codes', first') h' => .pure ⟨?_, h'.2⟩
      exact congrArg₂ List.cons h h'.1
    cases first with
    | none => exact hrest (some tracker)
    | some first =>
      exact Mirrors.next (attempt (first.checkCompatible tracker)) fun _ => hrest (some first)

end

/-! ## Functions -/

private theorem mirrors_noteDeclare {words : List Word} {name : String} {declared : Declared}
    {declaration : Declaration} (h : Word.spell words = declaration.render) :
    Mirrors Spells (pure [.declare words name declared, blankLine name declared])
      (noteDeclare name declaration) := by
  have hpair : (pure [.declare words name declared, blankLine name declared] :
      Noting (List NamedCode)) =
        pure [.declare words name declared] ++ pure [blankLine name declared] := rfl
  rw [hpair]
  exact (mirrors_declare h).append (mirrors_line (by simp))

private theorem mirrors_copies (copies : List VariableDecl) :
    Mirrors Spells (pure (nameCopies copies)) (noteCopies copies) := by
  induction copies with
  | nil => exact .pure rfl
  | cons decl rest ih => exact (mirrors_noteDeclare (by simp)).append ih

/-- The words of a declaration spell it. -/
theorem spell_declarationWords (definitions : Definitions) (decl : VariableDecl) :
    (declarationWords definitions decl).map Word.spell =
      (declarationOf definitions decl).map Declaration.render := by
  unfold declarationWords declarationOf
  cases decl.value with
  | none => simp [Except.map, pure, Except.pure]
  | some value =>
    simp only [← Expression.spell_words]
    cases value.words definitions <;>
      simp [Except.map, bind, Except.bind, pure, Except.pure, Declaration.render]

private theorem mirrors_locals (definitions : Definitions) (locals : List VariableDecl) :
    Mirrors Spells (nameLocals definitions locals) (noteLocals definitions locals) := by
  induction locals with
  | nil => exact .pure rfl
  | cons decl rest ih =>
    rw [nameLocals, noteLocals]
    exact (mirrors_results (spell_declarationWords definitions decl)).bind
      fun words declaration h => (mirrors_noteDeclare h).append ih

theorem mirrors_function (definitions : Definitions) (copies locals : List VariableDecl)
    (body : List Statement) :
    Mirrors Spells (nameFunction definitions copies locals body)
      (noteFunction definitions copies locals body) :=
  (mirrors_copies copies).append ((mirrors_locals definitions locals).append
    ((mirrors_statements definitions _ none body).append mirrors_close))

end PlusCalGo.Go
