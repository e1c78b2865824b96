import PlusCalGo.Proofs.Names.Apart
import PlusCalGo.Proofs.Resolution.Visibility

/-!
# What functions declare

The code of a function declares copies of globals, the locals, the variables that its statements
bind, and beside them only names that the back end takes for itself.
-/

namespace PlusCalGo

namespace Go

/-! ## Code that keeps names apart -/

section Keeps

variable {sources copies functions : List String}

/-- Every name that the code declares belongs to what it is declared for. -/
def NamedCode.Keeps (sources copies functions : List String) (code : List NamedCode) : Prop :=
  ∀ entry ∈ NamedCode.listDeclarations code, entry.2.Belongs sources copies functions entry.1

namespace NamedCode

theorem keeps_nil : Keeps sources copies functions [] := List.forall_mem_nil _

theorem Keeps.append {first second : List NamedCode} (hfirst : Keeps sources copies functions first)
    (hsecond : Keeps sources copies functions second) :
    Keeps sources copies functions (first ++ second) := by
  rw [Keeps, listDeclarations_append]
  exact List.forall_mem_append.2 ⟨hfirst, hsecond⟩

theorem Keeps.cons {first : NamedCode} {rest : List NamedCode}
    (hfirst : ∀ entry ∈ first.declarations, entry.2.Belongs sources copies functions entry.1)
    (hrest : Keeps sources copies functions rest) :
    Keeps sources copies functions (first :: rest) :=
  List.forall_mem_append.2 ⟨hfirst, hrest⟩

theorem keeps_line (words : List Word) : Keeps sources copies functions [.line words] :=
  .cons (List.forall_mem_nil _) keeps_nil

theorem Keeps.declare {words : List Word} {name : String} {declared : Declared}
    {rest : List NamedCode} (hdeclared : declared.Belongs sources copies functions name)
    (hrest : Keeps sources copies functions rest) :
    Keeps sources copies functions (.declare words name declared :: rest) :=
  .cons (List.forall_mem_singleton.2 hdeclared) hrest

theorem Keeps.branch {condition : Condition} {yes no : List NamedCode}
    (hdeclares : ∀ entry ∈ condition.declares, entry.2.Belongs sources copies functions entry.1)
    (hyes : Keeps sources copies functions yes) (hno : Keeps sources copies functions no) :
    Keeps sources copies functions [.branch condition yes no] :=
  .cons (List.forall_mem_append.2 ⟨hdeclares, List.forall_mem_append.2 ⟨hyes, hno⟩⟩) keeps_nil

theorem Keeps.loop {body : List NamedCode} (h : Keeps sources copies functions body) :
    Keeps sources copies functions [.loop body] :=
  .cons h keeps_nil

theorem Keeps.block {body : List NamedCode} (h : Keeps sources copies functions body) :
    Keeps sources copies functions [.block body] :=
  .cons h keeps_nil

theorem keeps_switch (subject : String) {cases : List (List NamedCode)}
    (h : ∀ body ∈ cases, Keeps sources copies functions body) :
    Keeps sources copies functions [.switch subject cases] := by
  refine .cons ?_ keeps_nil
  rw [declarations]
  induction cases with
  | nil => exact List.forall_mem_nil _
  | cons body rest ih =>
    obtain ⟨hbody, hothers⟩ := List.forall_mem_cons.1 h
    exact List.forall_mem_append.2 ⟨hbody, ih hothers⟩

theorem keeps_map {α : Type} {code : α → NamedCode} (items : List α)
    (h : ∀ item ∈ items, Keeps sources copies functions [code item]) :
    Keeps sources copies functions (items.map code) := by
  induction items with
  | nil => exact keeps_nil
  | cons item rest ih =>
    obtain ⟨hitem, hothers⟩ := List.forall_mem_cons.1 h
    exact hitem.append (ih hothers)

end NamedCode

open NamedCode

/-- An error is called `err`. -/
private theorem belongs_failure :
    ∀ entry ∈ [("err", Declared.failure)], entry.2.Belongs sources copies functions entry.1 :=
  List.forall_mem_singleton.2 (.inl (by decide))

theorem keeps_namedCall (call : List Word) : Keeps sources copies functions [namedCall call] :=
  .branch belongs_failure (keeps_line _) keeps_nil

theorem keeps_namedLoad (name : String) : Keeps sources copies functions [namedLoad name] := by
  refine .branch ?_ (keeps_line _) (keeps_line _)
  exact List.forall_mem_cons.2 ⟨.inl (by decide), List.forall_mem_singleton.2 (.inr (by decide))⟩

theorem SectionCall.keeps_named (call : SectionCall) :
    Keeps sources copies functions call.named := by
  obtain ⟨strategy, action, group⟩ := call
  unfold SectionCall.named
  cases strategy with
  | inProcess => cases action <;> exact keeps_line _
  | coordinated shared =>
    cases action with
    | acquire =>
      refine Keeps.append (keeps_namedCall _) ?_
      split
      · exact keeps_map _ fun name _ => keeps_namedLoad name
      · exact keeps_nil
    | release =>
      refine Keeps.append ?_ (keeps_namedCall _)
      split
      · exact keeps_map _ fun name _ => keeps_namedCall _
      · exact keeps_nil
    | abort => exact keeps_namedCall _

theorem NotedCode.keeps_named (code : NotedCode) : Keeps sources copies functions code.named := by
  induction code with
  | nil => exact keeps_nil
  | cons first rest ih =>
    refine Keeps.append ?_ ih
    beta_reduce
    split
    · exact SectionCall.keeps_named _
    · exact .cons (List.forall_mem_nil _) keeps_nil
    · exact .cons (List.forall_mem_nil _) keeps_nil
    · exact keeps_line _
    · exact keeps_nil

theorem keeps_nameSimultaneous (first : Nat) (pairs : List (List Word × List Word)) :
    Keeps sources copies functions [nameSimultaneous first pairs] := by
  refine .block (.append (keeps_map _ fun entry _ => ?_) (keeps_map _ fun entry _ => keeps_line _))
  exact .declare (internal_temporary entry.1) keeps_nil

/-! ## Lowering -/

/-- If the operation goes well, its value has the property. -/
def Noting.Makes {α : Type} (naming : Noting α) (property : α → Prop) : Prop :=
  ∀ progress value after, naming progress = .ok (value, after) → property value

namespace Noting

variable {α β : Type} {property : α → Prop}

theorem makes_any (naming : Noting α) : Makes naming fun _ => True := fun _ _ _ _ => trivial

theorem Makes.pure {value : α} (h : property value) : Makes (Pure.pure value) property := by
  intro progress result after hresult
  obtain ⟨rfl, _⟩ := pure_ok.1 hresult
  exact h

theorem Makes.bind {naming : Noting α} {next : α → Noting β} {other : β → Prop}
    (h : Makes naming property) (hnext : ∀ value, property value → Makes (next value) other) :
    Makes (naming >>= next) other := by
  intro progress result after hresult
  obtain ⟨value, between, hvalue, hresult⟩ := bind_ok.1 hresult
  exact hnext value (h progress value between hvalue) between result after hresult

/-- What comes first does not matter. -/
theorem Makes.after {naming : Noting α} {next : α → Noting β} {other : β → Prop}
    (hnext : ∀ value, Makes (next value) other) : Makes (naming >>= next) other :=
  (makes_any naming).bind fun value _ => hnext value

theorem Makes.append {first second : Noting (List NamedCode)}
    (hfirst : Makes first (Keeps sources copies functions))
    (hsecond : Makes second (Keeps sources copies functions)) :
    Makes (first ++ second) (Keeps sources copies functions) :=
  hfirst.bind fun _ hfront => hsecond.bind fun _ hback => .pure (hfront.append hback)

theorem makes_named (noting : Noting NotedCode) :
    Makes noting.named (Keeps sources copies functions) :=
  .after fun code => .pure code.keeps_named

theorem makes_throw (problem : Diagnostic) : Makes (throw problem : Noting α) property := by
  intro progress value after h
  cases h

end Noting

open Noting

theorem makes_nameAssign (pairs : List (List Word × List Word)) :
    Makes (nameAssign pairs) (Keeps sources copies functions) := by
  unfold nameAssign
  split
  · exact .pure (keeps_line _)
  · exact .after fun first => .pure (keeps_nameSimultaneous first pairs)

theorem makes_nameBindings (definitions : Definitions) (bindings : List VariableDecl)
    (h : ∀ decl ∈ bindings, decl.name ∈ sources) :
    Makes (nameBindings definitions bindings) (Keeps sources copies functions) := by
  induction bindings with
  | nil => exact .pure keeps_nil
  | cons decl rest ih =>
    obtain ⟨hdecl, hothers⟩ := List.forall_mem_cons.1 h
    rw [nameBindings]
    split
    · exact makes_throw _
    · exact .after fun words => .append (.pure (.declare hdecl (keeps_line _))) (ih hothers)

theorem makes_branch (closeSection : Bool) {naming : Noting (List NamedCode)}
    (h : Makes naming (Keeps sources copies functions)) :
    Makes (namedBranch closeSection naming)
      fun result => Keeps sources copies functions result.1 := by
  have hclose : Makes (if closeSection then close.named else pure [])
      (Keeps sources copies functions) := by
    cases closeSection with
    | false => exact .pure keeps_nil
    | true => exact makes_named close
  refine .after fun before => (h.append hclose).bind fun code hcode => ?_
  exact .after fun after => .after fun _ => .pure hcode

mutual

/-- Statements declare the variables they bind, and internal names. -/
theorem makes_nameStatement (definitions : Definitions) (targets : List String)
    (statement : Statement) (h : ∀ decl ∈ statement.bindings, decl.name ∈ sources) :
    Makes (nameStatement definitions targets statement) (Keeps sources copies functions) := by
  cases statement with
  | labeled mark label body =>
    have hbody := makes_nameStatements definitions targets body h
    rw [nameStatement]
    refine .append ?_ (.append (makes_named _) (.append (makes_named _) hbody))
    split
    · exact makes_named close
    · exact .pure keeps_nil
  | whileDo mark condition body =>
    have hbody := makes_nameStatements definitions targets body h
    rw [nameStatement]
    refine .after fun words => .after fun entry => ?_
    have hcheck : Keeps sources copies functions [branchUnless words [.line [.text "break"]]] :=
      .branch (List.forall_mem_nil _) (keeps_line _) keeps_nil
    refine (Makes.append (.pure hcheck) (hbody.append (makes_named _))).bind fun code hcode => ?_
    exact .after fun after => .after fun _ => .pure hcode.loop
  | ifElse mark condition yes no =>
    obtain ⟨hyes, hno⟩ := List.forall_mem_append.1 h
    have hyes := makes_nameStatements definitions targets yes hyes
    have hno := makes_nameStatements definitions targets no hno
    rw [nameStatement]
    refine .after fun words => ?_
    refine (makes_branch _ hyes).bind fun (yes, yesTracker) hyes => ?_
    refine (makes_branch _ hno).bind fun (no, noTracker) hno => ?_
    exact .after fun _ => .after fun _ => .pure (.branch (List.forall_mem_nil _) hyes hno)
  | either mark cases =>
    rw [nameStatement]
    refine (makes_nameCases definitions targets _ none cases h).bind fun (bodies, first) h => ?_
    cases first with
    | none => exact .after fun _ => .pure (keeps_switch _ h)
    | some first => exact .after fun _ => .after fun _ => .pure (keeps_switch _ h)
  | assign mark pairs => exact .after fun pairs => makes_nameAssign pairs
  | leave mark => exact .append (makes_named close) (makes_named _)
  | skip mark => exact .pure keeps_nil
  | call mark target arguments =>
    exact .after fun texts => .append (makes_named close) (.pure (keeps_line _))
  | macroCall mark target arguments => exact makes_throw _
  | withDo mark bindings body =>
    obtain ⟨hbindings, hbody⟩ := List.forall_mem_append.1 h
    rw [nameStatement]
    exact (Makes.append (makes_nameBindings definitions bindings hbindings)
      (makes_nameStatements definitions targets body hbody)).bind fun inner hinner =>
        .pure hinner.block
  | print mark value => exact .after fun words => .after fun _ => .pure (keeps_line _)
  | assert mark value =>
    exact .after fun words => .pure (.branch (List.forall_mem_nil _) (keeps_line _) keeps_nil)
  | await mark value =>
    have hretry : Makes (namedBranch false (abort none).named)
        fun result => Keeps sources copies functions result.1 := makes_branch _ (makes_named _)
    rw [nameStatement]
    refine .after fun words => hretry.bind fun (retry, after) hretry => .pure ?_
    exact .branch (List.forall_mem_nil _) hretry keeps_nil
  | goto mark target =>
    rw [nameStatement]
    refine .append (makes_named close) ?_
    split
    · exact makes_named _
    · exact makes_named _

theorem makes_nameStatements (definitions : Definitions) (targets : List String)
    (statements : List Statement)
    (h : ∀ decl ∈ Statement.listBindings statements, decl.name ∈ sources) :
    Makes (nameStatements definitions targets statements) (Keeps sources copies functions) := by
  cases statements with
  | nil => exact .pure keeps_nil
  | cons statement rest =>
    obtain ⟨hstatement, hrest⟩ := List.forall_mem_append.1 h
    exact .append (makes_nameStatement definitions targets statement hstatement)
      (makes_nameStatements definitions targets rest hrest)

theorem makes_nameCases (definitions : Definitions) (targets : List String) (closeSection : Bool)
    (first : Option Tracker) (cases : List (List Statement))
    (h : ∀ decl ∈ Statement.casesBindings cases, decl.name ∈ sources) :
    Makes (nameCases definitions targets closeSection first cases)
      fun result => ∀ body ∈ result.1, Keeps sources copies functions body := by
  cases cases with
  | nil => exact .pure (List.forall_mem_nil _)
  | cons body rest =>
    obtain ⟨hbody, hrest⟩ := List.forall_mem_append.1 h
    have hbody := makes_nameStatements definitions targets body hbody
    rw [nameCases]
    refine (makes_branch closeSection hbody).bind fun (code, tracker) hcode => ?_
    have hothers (first : Option Tracker) : Makes (do
        let (codes, first) ← nameCases definitions targets closeSection first rest
        pure (code :: codes, first))
        fun result => ∀ body ∈ result.1, Keeps sources copies functions body :=
      (makes_nameCases definitions targets closeSection first rest hrest).bind
        fun (codes, first) hcodes => .pure (List.forall_mem_cons.2 ⟨hcode, hcodes⟩)
    cases first with
    | none => exact hothers _
    | some first => exact .after fun _ => hothers _

end

private theorem makes_nameLocals (definitions : Definitions) (locals : List VariableDecl)
    (h : ∀ decl ∈ locals, decl.name ∈ sources) :
    Makes (nameLocals definitions locals) (Keeps sources copies functions) := by
  induction locals with
  | nil => exact .pure keeps_nil
  | cons decl rest ih =>
    obtain ⟨hdecl, hothers⟩ := List.forall_mem_cons.1 h
    rw [nameLocals]
    exact .after fun words => .append (.pure (.declare hdecl (keeps_line _))) (ih hothers)

private theorem keeps_nameCopies (copied : List VariableDecl)
    (h : ∀ decl ∈ copied, decl.name ∈ copies) :
    Keeps sources copies functions (nameCopies copied) := by
  induction copied with
  | nil => exact keeps_nil
  | cons decl rest ih =>
    obtain ⟨hdecl, hothers⟩ := List.forall_mem_cons.1 h
    exact .declare ⟨rfl, hdecl⟩ (.append (keeps_line _) (ih hothers))

/-- A function declares its copies and variables, and internal names. -/
theorem makes_nameFunction (definitions : Definitions) {copied locals : List VariableDecl}
    {body : List Statement} (hcopied : ∀ decl ∈ copied, decl.name ∈ copies)
    (hvariables : ∀ decl ∈ locals ++ Statement.listBindings body, decl.name ∈ sources) :
    Makes (nameFunction definitions copied locals body) (Keeps sources copies functions) := by
  obtain ⟨hlocals, hbindings⟩ := List.forall_mem_append.1 hvariables
  exact .append (.pure (keeps_nameCopies copied hcopied))
    (.append (makes_nameLocals definitions locals hlocals)
      (.append (makes_nameStatements definitions _ body hbindings) (makes_named close)))

end Keeps

end Go

end PlusCalGo
