import PlusCalGo.Proofs.Expressions.Evaluation
import PlusCalGo.Proofs.Expressions.Operations
import PlusCalGo.Proofs.Expressions.Rereading
import PlusCalGo.Proofs.Names.Lowering

/-!
# Simultaneous assignments

The block of a simultaneous assignment, read line by line and run. It takes all right sides from the
store before the assignment, but finds each target in the store that the targets before it leave.
-/

namespace PlusCalGo.Go

/-! ## Blocks of lines -/

/-- A line that declares a variable or assigns a value. -/
inductive Command where
  | define (name : String) (value : Term)
  | assign (target value : Term)

/-- The command on a line. An assignment has its value behind the last equals sign. -/
def command (line : String) : Option Command := do
  match ← tokens line with
  | .word name :: .sign ":=" :: value => pure (.define name (← parse value))
  | tokens =>
    let (value, target) := tokens.reverse.span (· ≠ .sign "=")
    pure (.assign (← parse target.tail.reverse) (← parse value.reverse))

namespace Runtime

section Blocks

variable (runtime : Runtime)

/-- Changes a variable of the block, or a cell of the store. -/
def write (cell : Cell runtime.Address) (value : runtime.Value) :
    runtime.Temporaries × runtime.Store → runtime.Temporaries × runtime.Store
  | (temporaries, store) =>
    match cell with
    | .named name =>
      if (temporaries.lookup name).isSome then ((name, value) :: temporaries, store)
      else (temporaries, store.set cell value)
    | .element _ => (temporaries, store.set cell value)

def perform : Command → runtime.Temporaries × runtime.Store →
    Option (runtime.Temporaries × runtime.Store)
  | .define name value, (temporaries, store) => do
    let (value, store) ← runtime.eval temporaries value store
    pure ((name, value) :: temporaries, store)
  | .assign target value, (temporaries, store) => do
    let (cell, store) ← runtime.locate temporaries target store
    let (value, store) ← runtime.eval temporaries value store
    pure (runtime.write cell value (temporaries, store))

variable {κ : Type}

def runLine : runtime.Temporaries × runtime.Store → Code κ →
    Option (runtime.Temporaries × runtime.Store)
  | state, .line text => do runtime.perform (← command text) state
  | _, _ => none

/-- The store that a block of lines leaves, without the variables of the block. -/
def runBlock : Code κ → runtime.Store → Option runtime.Store
  | .block body, store => (body.foldlM runtime.runLine ([], store)).map Prod.snd
  | _, _ => none

/-- Assigns values to targets, one after the other. -/
def assignAll : List (Term × runtime.Value) → runtime.Store → Option runtime.Store
  | [], store => some store
  | (target, value) :: rest, store => do
    let (cell, store) ← runtime.locate [] target store
    assignAll rest (store.set cell value)

/-- Computes all values first, and then assigns them one after the other. -/
def assignInTurn (pairs : List (Term × Term)) (store : runtime.Store) : Option runtime.Store := do
  let (values, store) ← runtime.evalAll [] (pairs.map Prod.snd) store
  runtime.assignAll ((pairs.map Prod.fst).zip values) store

end Blocks

end Runtime

/-! ## Reading the lines -/

section Lines

variable {target value : String} {left right : Term}

theorem isName_temporaryName (number : Nat) : IsName (temporaryName number) := by
  have hchars : (temporaryName number).toList = "pgoTmp".toList ++ Nat.toDigits 10 number := by
    rw [temporaryName, String.toList_append, Nat.toList_repr]
  have hfirst : 'p' ∈ (temporaryName number).toList.head? := by
    rw [hchars]
    simp
  have hletters : "pgoTmp".toList.all goesOn = true := by decide
  refine ⟨⟨'p', hfirst, by decide⟩, ?_, ?_⟩
  · rw [hchars, List.all_append, hletters, Bool.true_and, List.all_eq_true]
    intro c hc
    have hdigit : c.isDigit = true := Json.isDigit_of_mem_toDigits hc
    simp [goesOn, hdigit]
  · intro hkeyword
    have hstart : "pgoTmp".toList.isPrefixOf (temporaryName number).toList = true := by
      rw [hchars, List.isPrefixOf_iff_prefix]
      exact List.prefix_append _ _
    have hnone : ∀ keyword ∈ keywords, "pgoTmp".toList.isPrefixOf keyword.toList = false := by
      decide
    rw [hnone _ hkeyword] at hstart
    exact absurd hstart (by decide)

theorem parse_word {name : String} (h : IsName name) : parse [.word name] = some (.name name) := by
  have hfunc : name ≠ "func" := by
    rintro rfl
    exact h.noKeyword (by decide)
  simp [parse, Reading.run, Reading.step, Reading.begin, hfunc, h.noKeyword, Reading.finish, reduce]

theorem parse_define (name : String) (rest : List Token) :
    parse (.word name :: .sign ":=" :: rest) = none := by
  by_cases hfunc : name = "func"
  · simp [parse, Reading.run, Reading.step, Reading.begin, hfunc]
  · by_cases hkeyword : name ∈ keywords
    · simp [parse, Reading.run, Reading.step, Reading.begin, hfunc, hkeyword]
    · simp [parse, Reading.run, Reading.step, Reading.begin, hfunc, hkeyword, Reading.carryOn,
        precedence, Reading.punctuate, reduce]

/-- The declaration of a variable. -/
theorem command_declare {name : String} (hname : IsName name) (h : Prints value right) :
    command (name ++ " := " ++ value) = some (.define name right) := by
  obtain ⟨tokens, hcut, hparse⟩ := h.exists_tokens
  have hsign : Cut anywhere " := " [.sign ":="] := cut_of_run_nothing rfl
  have hline := ((cut_name hname).append hsign ⟨' ', rfl, rfl⟩).append hcut h.nonempty
  rw [command, hline.tokens_eq]
  simp [hparse]

theorem command_define (number : Nat) (h : Prints value right) :
    command (temporaryName number ++ " := " ++ value) =
      some (.define (temporaryName number) right) :=
  command_declare (isName_temporaryName number) h

theorem command_assign (number : Nat) (h : Prints target left) :
    command (target ++ " = " ++ temporaryName number) =
      some (.assign left (.name (temporaryName number))) := by
  obtain ⟨tokens, hcut, hparse⟩ := h.exists_tokens
  have hname := isName_temporaryName number
  have hsign : Cut anywhere " = " [.sign "="] := cut_of_run_nothing rfl
  obtain ⟨c, hc, _⟩ := hname.first
  have hline := (hcut.append hsign ⟨' ', rfl, rfl⟩).append (cut_name hname) ⟨c, hc, rfl⟩
  rw [command, hline.tokens_eq]
  simp only [Option.bind_eq_bind, Option.bind_some]
  split
  · rename_i name rest heq
    rcases tokens with _ | ⟨first, _ | ⟨second, others⟩⟩
    · cases heq
    · simp at heq
    · cases heq
      rw [parse_define] at hparse
      cases hparse
  · simp [List.span_eq_takeWhile_dropWhile, parse_word hname, hparse]

end Lines

/-! ## Running the lines -/

/-- The lines for some pairs of a target and a value, each with the number of its temporary. -/
def numbered {κ : Type} (line : Nat → String × String → String) (first : Nat) :
    List (String × String) → List (Code κ)
  | [] => []
  | pair :: rest => .line (line first pair) :: numbered line (first + 1) rest

def saveLine (number : Nat) (pair : String × String) : String :=
  temporaryName number ++ " := " ++ pair.2

def assignLine (number : Nat) (pair : String × String) : String :=
  pair.1 ++ " = " ++ temporaryName number

theorem numbered_eq_map {κ : Type} (line : Nat → String × String → String) (first start : Nat)
    (pairs : List (String × String)) :
    numbered line (first + start) pairs =
      (pairs.zipIdx start).map fun entry => (.line (line (first + entry.2) entry.1) : Code κ) := by
  induction pairs generalizing start with
  | nil => rfl
  | cons pair rest ih => rw [List.zipIdx_cons, List.map_cons, numbered, Nat.add_assoc, ih]

theorem simultaneous_eq (first : Nat) (pairs : List (String × String)) :
    Lower.simultaneous first pairs =
      .block (numbered saveLine first pairs ++ numbered assignLine first pairs) := by
  have hsave : (numbered saveLine first pairs : List SectionCode) = _ :=
    numbered_eq_map saveLine first 0 pairs
  have hassign : (numbered assignLine first pairs : List SectionCode) = _ :=
    numbered_eq_map assignLine first 0 pairs
  rw [Lower.simultaneous, hsave, hassign]
  simp [saveLine, assignLine, temporaryName, Function.comp_def]

namespace Runtime

variable {runtime : Runtime} {temporaries : runtime.Temporaries} {store : runtime.Store}
  {values : List runtime.Value} {κ : Type}

/-- The variables of a block behind the declarations of some temporaries. -/
def saved (first : Nat) : List runtime.Value → runtime.Temporaries → runtime.Temporaries
  | [], temporaries => temporaries
  | value :: rest, temporaries =>
    saved (first + 1) rest ((temporaryName first, value) :: temporaries)

theorem lookup_saved_of_ne {name : String} {first : Nat}
    (h : ∀ number, first ≤ number → name ≠ temporaryName number) :
    (saved first values temporaries).lookup name = temporaries.lookup name := by
  induction values generalizing first temporaries with
  | nil => rfl
  | cons value rest ih =>
    rw [saved, ih fun number hnumber => h number (by omega), List.lookup_cons,
      beq_false_of_ne (h first (Nat.le_refl first))]

theorem lookup_saved {first index : Nat} {value : runtime.Value} (h : values[index]? = some value) :
    (saved first values temporaries).lookup (temporaryName (first + index)) = some value := by
  induction values generalizing first index temporaries with
  | nil => simp at h
  | cons head rest ih =>
    cases index with
    | zero =>
      obtain rfl : head = value := by simpa using h
      have hlater (number : Nat) (hnumber : first + 1 ≤ number) :
          temporaryName first ≠ temporaryName number := by
        intro hsame
        have := temporaryName_injective hsame
        omega
      rw [saved, Nat.add_zero, lookup_saved_of_ne hlater, List.lookup_cons_self]
    | succ index =>
      have hindex : (saved (first + 1) rest ((temporaryName first, head) :: temporaries)).lookup
          (temporaryName (first + 1 + index)) = some value := ih h
      rwa [Nat.add_right_comm] at hindex

/-- The first half of a block: the values, each computed without those before it. -/
theorem run_saves {texts : List (String × String)} {terms : List Term}
    (hprints : List.Forall₂ (fun text term => Prints text.2 term) texts terms)
    (hfree : ∀ term ∈ terms, ∀ name ∈ term.names, ∀ number, name ≠ temporaryName number)
    (first : Nat) (hlookup : ∀ name, (∀ number, name ≠ temporaryName number) →
      temporaries.lookup name = none) (store : runtime.Store) :
    (numbered saveLine first texts : List (Code κ)).foldlM runtime.runLine (temporaries, store) =
      (runtime.evalAll [] terms store).map fun (values, store) =>
        (saved first values temporaries, store) := by
  induction hprints generalizing first temporaries store with
  | nil => rfl
  | @cons text term texts terms htext hrest ih =>
    obtain ⟨hterm, hterms⟩ := List.forall_mem_cons.1 hfree
    have hline : runtime.runLine (temporaries, store) (.line (saveLine first text) : Code κ) =
        (runtime.eval [] term store).map fun (value, store) =>
          ((temporaryName first, value) :: temporaries, store) := by
      rw [runLine, saveLine, command_define first htext]
      simp only [Option.bind_eq_bind, Option.bind_some, perform]
      rw [eval_of_unnamed term fun name hname => hlookup name (hterm name hname)]
      cases runtime.eval [] term store <;> rfl
    rw [numbered, List.foldlM_cons, hline, evalAll]
    cases runtime.eval [] term store with
    | none => rfl
    | some result =>
      obtain ⟨value, after⟩ := result
      have hnext (name : String) (hname : ∀ number, name ≠ temporaryName number) :
          List.lookup name ((temporaryName first, value) :: temporaries) = none := by
        rw [List.lookup_cons, beq_false_of_ne (hname first)]
        exact hlookup name hname
      have hothers := ih hterms (first + 1) hnext after
      simp only [Option.map_some, Option.bind_eq_bind, Option.bind_some]
      rw [hothers]
      cases runtime.evalAll [] terms after <;> rfl

theorem write_of_locate {target : Term} {cell : Cell runtime.Address} {after : runtime.Store}
    (hlocate : runtime.locate [] target store = some (cell, after))
    (hunnamed : ∀ name ∈ target.names, temporaries.lookup name = none) (value : runtime.Value) :
    runtime.write cell value (temporaries, after) = (temporaries, after.set cell value) := by
  cases cell with
  | element address => rfl
  | named name =>
    obtain rfl := eq_name_of_locate hlocate
    have hname := hunnamed name (by simp [Term.names])
    simp [write, hname]

/-- The second half of a block: the assignments of the values saved. -/
theorem run_assignments {texts : List (String × String)} {targets : List Term}
    (hprints : List.Forall₂ (fun text target => Prints text.1 target) texts targets)
    (hunnamed : ∀ target ∈ targets, ∀ name ∈ target.names, temporaries.lookup name = none)
    (first : Nat) (hlength : targets.length = values.length)
    (hsaved : ∀ index value, values[index]? = some value →
      temporaries.lookup (temporaryName (first + index)) = some value) (store : runtime.Store) :
    (numbered assignLine first texts : List (Code κ)).foldlM runtime.runLine (temporaries, store) =
      (runtime.assignAll (targets.zip values) store).map fun store => (temporaries, store) := by
  induction hprints generalizing first values store with
  | nil => rfl
  | @cons text target texts targets htext hrest ih =>
    cases values with
    | nil => cases hlength
    | cons value values =>
      obtain ⟨htarget, htargets⟩ := List.forall_mem_cons.1 hunnamed
      have hvalue : temporaries.lookup (temporaryName first) = some value := hsaved 0 value rfl
      have hline : runtime.runLine (temporaries, store) (.line (assignLine first text) : Code κ) =
          (runtime.locate [] target store).map fun (cell, store) =>
            (temporaries, store.set cell value) := by
        rw [runLine, assignLine, command_assign first htext]
        simp only [Option.bind_eq_bind, Option.bind_some, perform]
        rw [locate_of_unnamed target htarget]
        cases hlocate : runtime.locate [] target store with
        | none => rfl
        | some result =>
          obtain ⟨cell, after⟩ := result
          simp [eval, hvalue, write_of_locate hlocate htarget]
      rw [numbered, List.foldlM_cons, hline, List.zip_cons_cons, assignAll]
      cases runtime.locate [] target store with
      | none => rfl
      | some result =>
        obtain ⟨cell, after⟩ := result
        refine ih htargets (first + 1) (by simpa using hlength) (fun index later hlater => ?_) _
        have hindex := hsaved (index + 1) later (by simpa using hlater)
        rwa [Nat.add_right_comm]

theorem length_of_evalAll {terms : List Term} {after : runtime.Store}
    (h : runtime.evalAll temporaries terms store = some (values, after)) :
    values.length = terms.length := by
  induction terms generalizing values store with
  | nil =>
    cases h
    rfl
  | cons term rest ih =>
    obtain ⟨⟨value, between⟩, -, h⟩ := Option.bind_eq_some_iff.1 h
    obtain ⟨⟨others, last⟩, hothers, h⟩ := Option.bind_eq_some_iff.1 h
    cases h
    simp [ih hothers]

/-- A block computes the values in the store it starts from, and assigns them one by one. -/
theorem runBlock_simultaneous {texts : List (String × String)} {terms : List (Term × Term)}
    (hprints : List.Forall₂ (fun text term => Prints text.1 term.1 ∧ Prints text.2 term.2)
      texts terms)
    (hfree : ∀ term ∈ terms, ∀ name ∈ term.1.names ++ term.2.names, ∀ number,
      name ≠ temporaryName number) (first : Nat) (store : runtime.Store) :
    runtime.runBlock (Lower.simultaneous first texts) store = runtime.assignInTurn terms store := by
  have htargets : List.Forall₂ (fun text target => Prints text.1 target) texts
      (terms.map Prod.fst) := List.forall₂_map_right_iff.2 (hprints.imp fun _ _ h => h.1)
  have hvalues : List.Forall₂ (fun text value => Prints text.2 value) texts
      (terms.map Prod.snd) := List.forall₂_map_right_iff.2 (hprints.imp fun _ _ h => h.2)
  have hfreeTargets : ∀ target ∈ terms.map Prod.fst, ∀ name ∈ target.names, ∀ number,
      name ≠ temporaryName number := by
    intro target htarget name hname
    obtain ⟨term, hterm, rfl⟩ := List.mem_map.1 htarget
    exact hfree term hterm name (List.mem_append_left _ hname)
  have hfreeValues : ∀ value ∈ terms.map Prod.snd, ∀ name ∈ value.names, ∀ number,
      name ≠ temporaryName number := by
    intro value hvalue name hname
    obtain ⟨term, hterm, rfl⟩ := List.mem_map.1 hvalue
    exact hfree term hterm name (List.mem_append_right _ hname)
  have hsaves : (numbered saveLine first texts : List SectionCode).foldlM runtime.runLine
      ([], store) = _ :=
    run_saves hvalues hfreeValues first (fun _ _ => List.lookup_nil) store
  rw [simultaneous_eq, runBlock, List.foldlM_append, hsaves, assignInTurn]
  cases heval : runtime.evalAll [] (terms.map Prod.snd) store with
  | none => rfl
  | some result =>
    obtain ⟨values, after⟩ := result
    have hlength : (terms.map Prod.fst).length = values.length := by
      simpa using (length_of_evalAll heval).symm
    have hunnamed : ∀ target ∈ terms.map Prod.fst, ∀ name ∈ target.names,
        (saved first values []).lookup name = none := by
      intro target htarget name hname
      rw [lookup_saved_of_ne fun number _ => hfreeTargets target htarget name hname number]
      exact List.lookup_nil
    have hassigns : (numbered assignLine first texts : List SectionCode).foldlM runtime.runLine
        (saved first values [], after) = _ :=
      run_assignments htargets hunnamed first hlength (fun index value h => lookup_saved h) after
    simp only [Option.map_some, Option.bind_eq_bind, Option.bind_some, hassigns]
    cases runtime.assignAll ((terms.map Prod.fst).zip values) after <;> rfl

/-! ## All at once -/

variable (runtime) in
/-- In the store each right side has its value, and computing it changes nothing. -/
def Values (terms : List Term) (store : runtime.Store) (values : List runtime.Value) : Prop :=
  List.Forall₂ (fun term value => runtime.eval [] term store = some (value, store)) terms values

variable (runtime) in
/-- In the store each target leads to its cell, and finding it changes nothing. -/
def Cells (targets : List Term) (store : runtime.Store) (cells : List (Cell runtime.Address)) :
    Prop :=
  List.Forall₂ (fun target cell => runtime.locate [] target store = some (cell, store))
    targets cells

/-- Each target leads to its cell at its turn, when those before it have got their values. -/
inductive Turns (runtime : Runtime) : List (Term × runtime.Value) → runtime.Store →
    List (Cell runtime.Address) → Prop where
  | nil (store : runtime.Store) : Turns runtime [] store []
  | cons {target : Term} {value : runtime.Value} {rest : List (Term × runtime.Value)}
      {store : runtime.Store} {cell : Cell runtime.Address} {cells : List (Cell runtime.Address)}
      (here : runtime.locate [] target store = some (cell, store))
      (later : Turns runtime rest (store.set cell value) cells) :
      Turns runtime ((target, value) :: rest) store (cell :: cells)

theorem evalAll_of_values {terms : List Term} (h : runtime.Values terms store values) :
    runtime.evalAll [] terms store = some (values, store) := by
  induction h with
  | nil => rfl
  | cons hterm _ ih => simp [evalAll, hterm, ih]

/-- Assigning one after the other is assigning at once, to the cells found at each turn. -/
theorem assignAll_of_turns {writes : List (Term × runtime.Value)}
    {cells : List (Cell runtime.Address)} (h : runtime.Turns writes store cells) :
    runtime.assignAll writes store = some (store.setAll (cells.zip (writes.map Prod.snd))) := by
  induction h with
  | nil => rfl
  | cons here _ ih =>
    simp only [assignAll, here, Option.bind_eq_bind, Option.bind_some, ih, List.map_cons,
      List.zip_cons_cons, Store.setAll_cons]

/-- Targets that are variables, or elements of variables at plain subscripts, each of which names
nothing that a target before it changes. -/
structure Steady (targets : List Term) : Prop where
  direct : ∀ target ∈ targets, target.isDirect = true
  apart : targets.Pairwise fun earlier later =>
    ∀ name, earlier = .name name → name ∉ later.readNames

theorem turns_of_steady {targets : List Term} (hsteady : Steady targets)
    {cells : List (Cell runtime.Address)} (hcells : runtime.Cells targets store cells)
    (hlength : targets.length = values.length) {current : runtime.Store}
    (hcurrent : ∀ target ∈ targets, ∀ name ∈ target.readNames,
      current (.named name) = store (.named name)) :
    runtime.Turns (targets.zip values) current cells := by
  induction hcells generalizing values current with
  | nil => exact .nil current
  | @cons target cell targets cells htarget _ ih =>
    cases values with
    | nil => cases hlength
    | cons value values =>
      obtain ⟨hdirect, hdirects⟩ := List.forall_mem_cons.1 hsteady.direct
      obtain ⟨hapart, haparts⟩ := List.pairwise_cons.1 hsteady.apart
      obtain ⟨hfirst, hothers⟩ := List.forall_mem_cons.1 hcurrent
      obtain ⟨-, hhere⟩ := locate_direct hdirect hfirst htarget
      refine .cons hhere (ih ⟨hdirects, haparts⟩ (by simpa using hlength) ?_)
      intro later hlater name hname
      have hother : Cell.named name ≠ cell := by
        rintro rfl
        exact hapart later hlater name (eq_name_of_locate hhere) hname
      rw [Store.set, if_neg hother]
      exact hothers later hlater name hname

end Runtime

/-! ## Integers alone -/

/-- All values are integers, which also stand for arrays. -/
def integers : Runtime where
  Value := Int
  Address := Int × Int
  int value := value
  text _ := 0
  unary op value := if op = "-" then some (-value) else none
  binary := unbounded
  decides? _ _ := none
  isTrue? value := some (value ≠ 0)
  element array key := some (array, key)
  fixed _ := false
  slice _ _ := none
  call _ _ _ := none
  ints _ _ := none

/-! ## Lowering -/

/-- The trees of a target and of its value. -/
def pairTerms (definitions : Definitions) (pair : AssignmentPair) : Term × Term :=
  (pair.lhs.term definitions, pair.rhs.term definitions)

theorem pairs_ok {definitions : Definitions} {pairs : List AssignmentPair} {before after : Lowering}
    {texts : List (String × String)}
    (h : Lower.pairs definitions pairs before = .ok texts after) :
    after = before ∧ List.Forall₂ (fun pair text => pair.lhs.toGo definitions = .ok text.1 ∧
      pair.rhs.toGo definitions = .ok text.2) pairs texts := by
  induction pairs generalizing texts with
  | nil =>
    cases h
    exact ⟨rfl, .nil⟩
  | cons pair rest ih =>
    simp only [Lower.pairs, Lower.bind_apply, Lower.expression] at h
    cases htarget : pair.lhs.toGo definitions with
    | error problem =>
      rw [htarget] at h
      cases h
    | ok target =>
      cases hvalue : pair.rhs.toGo definitions with
      | error problem =>
        rw [htarget, hvalue] at h
        cases h
      | ok value =>
        rw [htarget, hvalue] at h
        simp only [Emit.liftExcept, pure, EStateM.pure] at h
        cases hrest : Lower.pairs definitions rest before with
        | error problem last =>
          rw [hrest] at h
          cases h
        | ok others last =>
          rw [hrest] at h
          cases h
          obtain ⟨rfl, hothers⟩ := ih hrest
          exact ⟨rfl, .cons ⟨htarget, hvalue⟩ hothers⟩

section Lowering

variable {definitions : Definitions} {targets : List String} {mark : Mark}
  {pairs : List AssignmentPair} {before after : Lowering}

theorem prints_pairs {texts : List (String × String)}
    (hprintable : ∀ pair ∈ pairs, pair.lhs.Printable definitions ∧ pair.rhs.Printable definitions)
    (htexts : List.Forall₂ (fun pair text => pair.lhs.toGo definitions = .ok text.1 ∧
      pair.rhs.toGo definitions = .ok text.2) pairs texts) :
    List.Forall₂ (fun text term => Prints text.1 term.1 ∧ Prints text.2 term.2) texts
      (pairs.map (pairTerms definitions)) := by
  induction htexts with
  | nil => exact .nil
  | cons htext _ ih =>
    obtain ⟨⟨hlhs, hrhs⟩, hrest⟩ := List.forall_mem_cons.1 hprintable
    exact .cons ⟨Expression.prints_toGo _ hlhs htext.1, Expression.prints_toGo _ hrhs htext.2⟩
      (ih hrest)

/-- An assignment of several pairs becomes one block. -/
theorem lowerStatement_simultaneous
    (h : lowerStatement definitions targets (.assign mark pairs) before = .ok () after)
    (hmany : 2 ≤ pairs.length) :
    ∃ texts, List.Forall₂ (fun pair text => pair.lhs.toGo definitions = .ok text.1 ∧
        pair.rhs.toGo definitions = .ok text.2) pairs texts ∧
      after.emission = { before.emission with
        builder := before.emission.builder.add
          (Lower.simultaneous before.nextTemporary texts) } := by
  rw [lowerStatement, Lower.bind_apply] at h
  cases hpairs : Lower.pairs definitions pairs before with
  | error problem last =>
    rw [hpairs] at h
    cases h
  | ok texts last =>
    obtain ⟨rfl, htexts⟩ := pairs_ok hpairs
    refine ⟨texts, htexts, ?_⟩
    rw [hpairs] at h
    rcases texts with _ | ⟨first, _ | ⟨second, rest⟩⟩
    · cases htexts
      simp at hmany
    · have hlength := htexts.length_eq
      simp at hlength
      omega
    · cases h
      rfl

/-- An assignment of several pairs becomes one block. The block computes all right sides first and
then assigns them one after the other; this is assigning them all at once, but to the cells that the
targets lead to at their turns. These are the cells from before the assignment if the targets are
steady. -/
theorem lowerStatement_assign
    (h : lowerStatement definitions targets (.assign mark pairs) before = .ok () after)
    (hmany : 2 ≤ pairs.length)
    (hprintable : ∀ pair ∈ pairs, pair.lhs.Printable definitions ∧ pair.rhs.Printable definitions)
    (hfree : ∀ pair ∈ pairs, ∀ name ∈ (pair.lhs.term definitions).names ++
      (pair.rhs.term definitions).names, ∀ number, name ≠ temporaryName number) :
    ∃ block, after.emission =
        { before.emission with builder := before.emission.builder.add block } ∧
      ∀ (runtime : Runtime) (store : runtime.Store),
        let terms := pairs.map (pairTerms definitions)
        runtime.runBlock block store = runtime.assignInTurn terms store ∧
          ∀ values, runtime.Values (terms.map Prod.snd) store values →
            (∀ cells, runtime.Turns ((terms.map Prod.fst).zip values) store cells →
              runtime.runBlock block store = some (store.setAll (cells.zip values))) ∧
            (Runtime.Steady (terms.map Prod.fst) → ∀ cells,
              runtime.Cells (terms.map Prod.fst) store cells →
              runtime.runBlock block store = some (store.setAll (cells.zip values))) := by
  obtain ⟨texts, htexts, hafter⟩ := lowerStatement_simultaneous h hmany
  have hprints : List.Forall₂ (fun text term => Prints text.1 term.1 ∧ Prints text.2 term.2) texts
      (pairs.map (pairTerms definitions)) := prints_pairs hprintable htexts
  have hnames : ∀ term ∈ pairs.map (pairTerms definitions), ∀ name ∈ term.1.names ++ term.2.names,
      ∀ number, name ≠ temporaryName number := by
    intro term hterm
    obtain ⟨pair, hpair, rfl⟩ := List.mem_map.1 hterm
    exact hfree pair hpair
  refine ⟨_, hafter, fun runtime store => ?_⟩
  intro terms
  have hrun := Runtime.runBlock_simultaneous hprints hnames before.nextTemporary store
  refine ⟨hrun, fun values hvalues => ?_⟩
  have hlength : (terms.map Prod.fst).length = values.length := by
    simpa [Runtime.Values] using hvalues.length_eq
  have hturns (cells : List (Cell runtime.Address))
      (hturns : runtime.Turns ((terms.map Prod.fst).zip values) store cells) :
      runtime.runBlock (Lower.simultaneous before.nextTemporary texts) store =
        some (store.setAll (cells.zip values)) := by
    rw [hrun, Runtime.assignInTurn, Runtime.evalAll_of_values hvalues]
    have hassign := Runtime.assignAll_of_turns hturns
    rwa [List.map_snd_zip (Nat.le_of_eq hlength.symm)] at hassign
  exact ⟨hturns, fun hsteady cells hcells => hturns cells
    (Runtime.turns_of_steady hsteady hcells hlength fun _ _ _ _ => rfl)⟩

/-- Two variables are exchanged. -/
theorem lowerStatement_assign_swap :
    let exchange : List AssignmentPair :=
      [⟨.identifier ⟨10⟩ "x", .identifier ⟨11⟩ "y"⟩, ⟨.identifier ⟨12⟩ "y", .identifier ⟨13⟩ "x"⟩]
    let store : integers.Store := fun cell => if cell = .named "x" then (1 : Int) else (2 : Int)
    let before : Lowering :=
      ⟨⟨.new ⟨0, .empty⟩ ⟨0, .inProcess⟩ ⟨1⟩, .empty⟩, 0, .none⟩
    let block : SectionCode := .block [.line "pgoTmp0 := y", .line "pgoTmp1 := x",
      .line "x = pgoTmp0", .line "y = pgoTmp1"]
    (∃ after, lowerStatement .empty [] (.assign ⟨⟨1⟩, .unknown⟩ exchange) before = .ok () after ∧
      after.emission.builder.current = [block]) ∧
      integers.runBlock block store =
        some (store.setAll [(.named "x", (2 : Int)), (.named "y", (1 : Int))]) := by
  intro exchange store before block
  have hblock : Lower.simultaneous 0 [("x", "y"), ("y", "x")] = block := rfl
  have hlower : lowerStatement .empty [] (.assign ⟨⟨1⟩, .unknown⟩ exchange) before = .ok ()
      ⟨⟨before.emission.tracker, before.emission.builder.add
        (Lower.simultaneous 0 [("x", "y"), ("y", "x")])⟩, 2, before.imports⟩ := rfl
  rw [hblock] at hlower
  have hx : IsName "x" := ⟨⟨'x', rfl, by decide⟩, by decide, by decide⟩
  have hy : IsName "y" := ⟨⟨'y', rfl, by decide⟩, by decide, by decide⟩
  have hfree (number : Nat) : "x" ≠ temporaryName number ∧ "y" ≠ temporaryName number := by
    constructor <;> intro hsame
    · have hhead := congrArg (fun name => name.toList.head?) hsame
      simp [temporaryName] at hhead
    · have hhead := congrArg (fun name => name.toList.head?) hsame
      simp [temporaryName] at hhead
  obtain ⟨other, hother, hrun⟩ := lowerStatement_assign hlower (by decide)
    (by simp [exchange, Expression.Printable, hx, hy])
    (by simp [exchange, Expression.term, Term.names, hfree])
  obtain rfl : block = other := by
    have hcurrent := congrArg (fun emission => emission.builder.current) hother
    simpa [before, Builder.add, Builder.empty] using hcurrent
  refine ⟨⟨_, hlower, rfl⟩, ?_⟩
  obtain ⟨-, hvalues⟩ := hrun integers store
  have hsteady : Runtime.Steady ((exchange.map (pairTerms .empty)).map Prod.fst) :=
    ⟨by simp [exchange, pairTerms, Expression.term, Term.isDirect],
      by simp [exchange, pairTerms, Expression.term, Term.readNames]⟩
  exact (hvalues [(2 : Int), (1 : Int)] (.cons rfl (.cons rfl .nil))).2 hsteady
    [.named "x", .named "y"] (.cons rfl (.cons rfl .nil))

/-- A subscript of the second target names the first target, and finds the new value: from one on,
the block changes the second element instead of the first one. -/
theorem subscript_reads_new_value :
    let definitions : Definitions :=
      ⟨[⟨⟨1⟩, "i", .global .plain, .unknown⟩, ⟨⟨2⟩, "a", .global .slice, .unknown⟩],
        [(⟨10⟩, ⟨1⟩), (⟨13⟩, ⟨2⟩), (⟨14⟩, ⟨1⟩)]⟩
    let pairs : List AssignmentPair :=
      [⟨.identifier ⟨10⟩ "i", .number ⟨11⟩ 2⟩,
        ⟨.index ⟨12⟩ (.identifier ⟨13⟩ "a") [.identifier ⟨14⟩ "i"], .number ⟨15⟩ 5⟩]
    let terms := pairs.map (pairTerms definitions)
    let store : integers.Store := fun cell => if cell = .named "i" then (1 : Int) else (0 : Int)
    let before : Lowering :=
      ⟨⟨.new ⟨0, .empty⟩ ⟨0, .inProcess⟩ ⟨1⟩, .empty⟩, 0, .none⟩
    let block : SectionCode := .block [.line "pgoTmp0 := 2", .line "pgoTmp1 := 5",
      .line "i = pgoTmp0", .line "a[i-1] = pgoTmp1"]
    let cells : List (Cell integers.Address) := [.named "i", .element ((0 : Int), (0 : Int))]
    let values : List integers.Value := [(2 : Int), (5 : Int)]
    (∃ after, lowerStatement definitions [] (.assign ⟨⟨1⟩, .unknown⟩ pairs) before = .ok () after ∧
      after.emission.builder.current = [block]) ∧
      integers.Values (terms.map Prod.snd) store values ∧
      integers.Cells (terms.map Prod.fst) store cells ∧
      ∃ result, integers.runBlock block store = some result ∧
        result (.element ((0 : Int), (0 : Int))) = (0 : Int) ∧
        result (.element ((0 : Int), (1 : Int))) = (5 : Int) ∧
        result ≠ store.setAll (cells.zip values) := by
  intro definitions pairs terms store before block cells values
  refine ⟨⟨_, rfl, ?_⟩, ?_, ?_, ?_⟩
  · show [Lower.simultaneous 0 [("i", "2"), ("a[i-1]", "5")]] = [block]
    rfl
  · exact .cons rfl (.cons rfl .nil)
  · exact .cons rfl (.cons rfl .nil)
  · refine ⟨_, rfl, rfl, rfl, fun hsame => ?_⟩
    have hfirst : (0 : Int) = 5 := congrFun hsame (.element ((0 : Int), (0 : Int)))
    exact absurd hfirst (by decide)

end Lowering

end PlusCalGo.Go
