import PlusCalGo.Proofs.Go.Success
import PlusCalGo.Proofs.Names.Words

/-!
# Lowering with names

A third lowering of bodies, which makes the code with its names. It follows the lowering with
remarks step by step, so the code it makes is the code of the program.
-/

namespace PlusCalGo.Go

/-! ## Calls of sections -/

/-- What stands behind a call of the service. -/
def failureWords : List Word := [.text "; ", .own "err" .failure, .text " != nil"]

def panicLine : NamedCode := .line [.text "panic(", .own "err" .failure, .text ")"]

def namedCall (call : List Word) : NamedCode :=
  .branch ⟨.text "err := " :: call, [("err", .failure)], failureWords⟩ [panicLine] []

def namedLoad (name : String) : NamedCode :=
  .branch ⟨[.text "pgoValue, err := ", .own globalState .service,
      .text (".GetInt(" ++ Text.quoted name ++ ")")],
    [("err", .failure), ("pgoValue", .loaded)], failureWords⟩ [panicLine]
    [.line [.own name (.copy name), .text " = ", .own "pgoValue" .loaded]]

def namedStore (name : String) : NamedCode :=
  namedCall [.own globalState .service, .text (".Set(" ++ Text.quoted name ++ ", "),
    .own name (.copy name), .text ")"]

/-- A call of the service that tells it who calls. -/
def namedLockCall (method group : String) : NamedCode :=
  namedCall [.own globalState .service, .text ("." ++ method ++ "("), .own "self" .self,
    .text (", " ++ group ++ ")")]

def namedMutexCall (method group : String) : NamedCode :=
  .line [.own lockArray .locks, .text ("[" ++ group ++ "]." ++ method ++ "()")]

/-- The statements a call stands for. -/
def SectionCall.named (call : SectionCall) : List NamedCode :=
  let group := call.group.text
  match call.strategy, call.action with
  | .inProcess, .acquire => [namedMutexCall "Lock" group]
  | .inProcess, .release | .inProcess, .abort => [namedMutexCall "Unlock" group]
  | strategy@(.coordinated _), .acquire =>
    namedLockCall "Lock" group ::
      match strategy.sharedGlobals? call.group with
      | some shared => shared.loads.map namedLoad
      | none => []
  | strategy@(.coordinated _), .release =>
    (match strategy.sharedGlobals? call.group with
      | some shared => shared.stores.map namedStore
      | none => []) ++ [namedLockCall "Unlock" group]
  | .coordinated _, .abort => [namedLockCall "Unlock" group]

section Calls

variable {κ : Type}

theorem plain_namedCall (call : List Word) :
    ((namedCall call).plain : Code κ) = checkedCall (Word.spell call) := by
  simp [namedCall, failureWords, panicLine, NamedCode.plain, NamedCode.listPlain, checkedCall,
    String.append_assoc]

theorem plain_namedLoad (name : String) :
    ((namedLoad name).plain : Code κ) = loadGlobal name := by
  simp [namedLoad, failureWords, panicLine, NamedCode.plain, NamedCode.listPlain, loadGlobal,
    String.append_assoc]

theorem plain_namedStore (name : String) :
    ((namedStore name).plain : Code κ) = storeGlobal name := by
  simp [namedStore, plain_namedCall, storeGlobal, String.append_assoc]

theorem plain_namedLock (group : String) :
    ((namedLockCall "Lock" group).plain : Code κ) =
      checkedCall (globalState ++ ".Lock(self, " ++ group ++ ")") := by
  have htext (rest : String) :
      ".Lock(" ++ ("self" ++ (", " ++ rest)) = ".Lock(self, " ++ rest := by
    rw [← String.append_assoc, ← String.append_assoc]
    simp
  simp [namedLockCall, plain_namedCall, htext, String.append_assoc]

theorem plain_namedUnlock (group : String) :
    ((namedLockCall "Unlock" group).plain : Code κ) =
      checkedCall (globalState ++ ".Unlock(self, " ++ group ++ ")") := by
  have htext (rest : String) :
      ".Unlock(" ++ ("self" ++ (", " ++ rest)) = ".Unlock(self, " ++ rest := by
    rw [← String.append_assoc, ← String.append_assoc]
    simp
  simp [namedLockCall, plain_namedCall, htext, String.append_assoc]

theorem listPlain_map {α : Type} {named : α → NamedCode} {code : α → Code κ}
    (h : ∀ item, (named item).plain = code item) (items : List α) :
    NamedCode.listPlain (items.map named) = items.map code := by
  induction items with
  | nil => rfl
  | cons item rest ih => rw [List.map_cons, NamedCode.listPlain, h, ih, List.map_cons]

/-- Without names it is the code of the call. -/
theorem SectionCall.plain_named (call : SectionCall) :
    (NamedCode.listPlain call.named : List (Code κ)) = call.code := by
  obtain ⟨strategy, action, group⟩ := call
  cases strategy with
  | inProcess =>
    cases action <;>
      simp [named, code, namedMutexCall, NamedCode.plain, NamedCode.listPlain, String.append_assoc]
  | coordinated shared =>
    cases action with
    | acquire =>
      simp only [named, code, NamedCode.listPlain, plain_namedLock]
      cases (Strategy.coordinated shared).sharedGlobals? group with
      | none => rfl
      | some globals => rw [listPlain_map plain_namedLoad]
    | release =>
      simp only [named, code, NamedCode.listPlain_append, NamedCode.listPlain, plain_namedUnlock]
      cases (Strategy.coordinated shared).sharedGlobals? group with
      | none => rfl
      | some globals => rw [listPlain_map plain_namedStore]
    | abort => simp only [named, code, NamedCode.listPlain, plain_namedUnlock]

end Calls

/-! ## Statements -/

/-- The names in code that is made of calls, labels, jumps and lines without names. -/
def NotedCode.named (code : NotedCode) : List NamedCode :=
  code.flatMap fun
    | .leaf (.call call) => call.named
    | .label name => [.label name]
    | .goto name => [.goto name]
    | .line text => [.line [.text text]]
    | _ => []

namespace Noting

instance : Append (Noting (List NamedCode)) :=
  ⟨fun first second => do pure ((← first) ++ (← second))⟩

def named (noting : Noting NotedCode) : Noting (List NamedCode) := do pure (← noting).named

/-- A branch on a copy of the tracker, with the tracker it leaves. -/
def namedBranch (closeSection : Bool) (body : Noting (List NamedCode)) :
    Noting (List NamedCode × Tracker) := do
  let before ← tracker
  let code ← body ++ if closeSection then close.named else pure []
  let after ← tracker
  setTracker before
  pure (code, after)

end Noting

open Noting

/-- The words of the targets and values of an assignment. -/
def pairWords (definitions : Definitions) :
    List AssignmentPair → Except Diagnostic (List (List Word × List Word))
  | [] => .ok []
  | pair :: rest => do
    let target ← pair.lhs.words definitions
    let value ← pair.rhs.words definitions
    pure ((target, value) :: (← pairWords definitions rest))

def temporaryName (number : Nat) : String := "pgoTmp" ++ Nat.repr number

theorem temporaryName_injective {first second : Nat}
    (h : temporaryName first = temporaryName second) : first = second :=
  Nat.repr_injective ((String.append_right_inj "pgoTmp").1 h)

def nameSimultaneous (first : Nat) (pairs : List (List Word × List Word)) : NamedCode :=
  let named := pairs.zipIdx.map fun (pair, index) => (first + index, pair)
  .block (named.map (fun (number, _, value) =>
      .declare (.text (temporaryName number ++ " := ") :: value) (temporaryName number)
        (.temporary number)) ++
    named.map (fun (number, target, _) =>
      .line (target ++ [.text " = ", .own (temporaryName number) (.temporary number)])))

def nameAssign (pairs : List (List Word × List Word)) : Noting (List NamedCode) :=
  match pairs with
  | [(target, value)] => pure [.line (target ++ .text " = " :: value)]
  | _ => do
    let first ← takeTemporaries pairs.length
    pure [nameSimultaneous first pairs]

/-- A line without effect, since Go refuses variables that are not used. -/
def blankLine (name : String) (declared : Declared) : NamedCode :=
  .line [.text "_ = ", .own name declared]

def nameBindings (definitions : Definitions) : List VariableDecl → Noting (List NamedCode)
  | [] => pure []
  | decl :: rest =>
    match decl.value with
    | none => throw (.of (.bindingWithoutValue decl.name))
    | some value => do
      let words ← attempt (value.words definitions)
      pure [.declare (.text (decl.name ++ " := ") :: words) decl.name (.source decl.uid),
        blankLine decl.name (.source decl.uid)] ++ nameBindings definitions rest

/-- A branch that is taken if the condition does not hold. -/
def branchUnless (words : List Word) (code : List NamedCode) : NamedCode :=
  .branch ⟨[], [], .text "!" :: words⟩ code []

mutual

def nameStatement (definitions : Definitions) (targets : List String) :
    Statement → Noting (List NamedCode)
  | .labeled _ label body =>
    (if label.name ∈ targets then close.named else pure []) ++ ((declareLabel label.name).named ++
      ((start label.uid label.name).named ++ nameStatements definitions targets body))
  | .whileDo _ condition body => do
    let words ← attempt (condition.words definitions)
    let entry ← tracker
    let inner ← pure [branchUnless words [.line [.text "break"]]] ++
      (nameStatements definitions targets body ++ (endLoop entry.label).named)
    let after ← tracker
    attempt (after.checkCompatible entry)
    pure [.loop inner]
  | .ifElse _ condition yes no => do
    let words ← attempt (condition.words definitions)
    let closeSection := Statement.anyTransfersControl yes || Statement.anyTransfersControl no
    let (yes, yesTracker) ← namedBranch closeSection (nameStatements definitions targets yes)
    let (no, noTracker) ← namedBranch closeSection (nameStatements definitions targets no)
    attempt (yesTracker.checkCompatible noTracker)
    setTracker yesTracker
    pure [.branch ⟨[], [], words⟩ yes no]
  | .either _ cases => do
    let closeSection := Statement.anyCaseTransfersControl cases
    let (bodies, first) ← nameCases definitions targets closeSection none cases
    if let some first := first then setTracker first
    setImports fun imports => { imports with rand := true }
    pure [.switch ("rand.Intn(" ++ Nat.repr cases.length ++ ")") bodies]
  | .assign _ pairs => do nameAssign (← attempt (pairWords definitions pairs))
  | .leave _ => close.named ++ (emitLine "return").named
  | .skip _ => pure []
  | .call _ target arguments => do
    let texts ← attempt (Expression.listWords definitions arguments)
    close.named ++ pure [.line (.text (target ++ "(") ::
      Word.listed ([.own "self" .self] :: texts) ++ [.text ")"])]
  | .macroCall _ target _ => throw (.of (.macroInCode target))
  | .withDo _ bindings body => do
    let inner ← nameBindings definitions bindings ++ nameStatements definitions targets body
    pure [.block inner]
  | .print _ value => do
    let words ← attempt (value.words definitions)
    setImports fun imports => { imports with fmt := true }
    pure [.line (.text "fmt.Println(" :: words ++ [.text ")"])]
  | .assert _ value => do
    let words ← attempt (value.words definitions)
    let message := Text.quoted ("assertion failed: " ++ Word.spell words)
    pure [branchUnless words [.line [.text ("panic(" ++ message ++ ")")]]]
  | .await _ value => do
    let words ← attempt (value.words definitions)
    let (retry, _) ← namedBranch false (abort none).named
    pure [branchUnless words retry]
  | .goto _ target =>
    close.named ++ if target = Label.done then (emitLine "return").named else (goTo target).named

def nameStatements (definitions : Definitions) (targets : List String) :
    List Statement → Noting (List NamedCode)
  | [] => pure []
  | statement :: rest =>
    nameStatement definitions targets statement ++ nameStatements definitions targets rest

def nameCases (definitions : Definitions) (targets : List String) (closeSection : Bool)
    (first : Option Tracker) :
    List (List Statement) → Noting (List (List NamedCode) × Option Tracker)
  | [] => pure ([], first)
  | body :: rest => do
    let (code, tracker) ← namedBranch closeSection (nameStatements definitions targets body)
    if let some first := first then attempt (first.checkCompatible tracker)
    let (codes, first) ← nameCases definitions targets closeSection
      (some (first.getD tracker)) rest
    pure (code :: codes, first)

end

/-! ## Functions -/

def nameCopies : List VariableDecl → List NamedCode
  | [] => []
  | decl :: rest =>
    .declare [.text (Declaration.zero decl.name decl.resource.goType).render] decl.name
        (.copy decl.name) ::
      blankLine decl.name (.copy decl.name) :: nameCopies rest

/-- The words of a declaration with its initial value, if it has one. -/
def declarationWords (definitions : Definitions) (decl : VariableDecl) :
    Except Diagnostic (List Word) := do
  match decl.value with
  | some value => pure (.text ("var " ++ decl.name ++ " = ") :: (← value.words definitions))
  | none => pure [.text (Declaration.zero decl.name decl.resource.goType).render]

def nameLocals (definitions : Definitions) : List VariableDecl → Noting (List NamedCode)
  | [] => pure []
  | decl :: rest => do
    let words ← attempt (declarationWords definitions decl)
    pure [.declare words decl.name (.source decl.uid), blankLine decl.name (.source decl.uid)] ++
      nameLocals definitions rest

/-- The declarations and the body of a function with their names. -/
def nameFunction (definitions : Definitions) (copies locals : List VariableDecl)
    (body : List Statement) : Noting (List NamedCode) :=
  pure (nameCopies copies) ++ (nameLocals definitions locals ++
    (nameStatements definitions (Statement.listJumpTargets body) body ++ close.named))

end PlusCalGo.Go
