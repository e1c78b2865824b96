import PlusCalGo.Proofs.Renaming.Lockstep
import PlusCalGo.Proofs.Renaming.Texts

/-!
# Bodies side by side

Each statement is lowered in step with the renamed one, whatever the two strategies are, and so are
bodies and functions. Nothing but the calls of the strategies differs in the code.
-/

namespace PlusCalGo.Go.Variation

variable {v : Variation}

/-! ## Assignments and bindings -/

theorem steps_expression (hv : Function.Injective v.rename) (definitions : Definitions)
    (expression : Expression) :
    v.Steps v.Lowerings Eq (Lower.expression definitions expression)
      (Lower.expression (definitions.rename v.rename) (expression.rename v.rename)) :=
  Steps.liftExcept (Expression.toGo_rename hv definitions expression)

theorem steps_pairs (hv : Function.Injective v.rename) (definitions : Definitions)
    (pairs : List AssignmentPair) :
    v.Steps v.Lowerings Eq (Lower.pairs definitions pairs)
      (Lower.pairs (definitions.rename v.rename) (pairs.map (AssignmentPair.rename v.rename))) := by
  induction pairs with
  | nil => exact Steps.pure rfl
  | cons pair rest ih =>
    refine (steps_expression hv definitions pair.lhs).next fun target => ?_
    refine (steps_expression hv definitions pair.rhs).next fun value => ?_
    exact ih.next fun texts => Steps.pure rfl

theorem codes_simultaneous (first : Nat) (pairs : List (String × String)) :
    v.Codes [Lower.simultaneous first pairs] [Lower.simultaneous first pairs] := by
  apply Codes.block
  exact (Codes.lines (fun item : String × String × String => item.1 ++ " := " ++ item.2.2) _).append
    (Codes.lines (fun item : String × String × String => item.2.1 ++ " = " ++ item.1) _)

/-- Temporaries are numbered the same way. -/
theorem steps_simultaneous (pairs : List (String × String)) :
    v.Steps v.Lowerings Eq (do
      let next := (← get).nextTemporary
      modify fun state : Lowering => { state with nextTemporary := next + pairs.length }
      Lower.add (Lower.simultaneous next pairs)) (do
      let next := (← get).nextTemporary
      modify fun state : Lowering => { state with nextTemporary := next + pairs.length }
      Lower.add (Lower.simultaneous next pairs)) := by
  refine Steps.get.bind fun state state' hstate => ?_
  rw [hstate.nextTemporary]
  refine Steps.next (Steps.modify fun _ _ h => ⟨h.emission, rfl, h.imports⟩) fun _ => ?_
  exact steps_add (codes_simultaneous _ _)

theorem steps_assign (hv : Function.Injective v.rename) (definitions : Definitions)
    (targets : List String) (mark : Mark) (pairs : List AssignmentPair) :
    v.Steps v.Lowerings Eq (lowerStatement definitions targets (.assign mark pairs))
      (lowerStatement (definitions.rename v.rename) targets
        ((Statement.assign mark pairs).rename v.rename)) := by
  refine (steps_pairs hv definitions pairs).next fun texts => ?_
  rcases texts with _ | ⟨⟨target, value⟩, _ | ⟨second, rest⟩⟩
  · exact steps_simultaneous []
  · exact steps_addLine _
  · exact steps_simultaneous _

theorem steps_bindings (hv : Function.Injective v.rename) (definitions : Definitions)
    (bindings : List VariableDecl) :
    v.Steps v.Lowerings Eq (Lower.bindings definitions bindings)
      (Lower.bindings (definitions.rename v.rename)
        (bindings.map (VariableDecl.rename v.rename))) := by
  induction bindings with
  | nil => exact Steps.pure rfl
  | cons decl rest ih =>
    simp only [List.map_cons, Lower.bindings, VariableDecl.rename]
    cases decl.value with
    | none => exact fun state state' _ => .error _ state state'
    | some value =>
      refine (steps_expression hv definitions value).next fun text => ?_
      exact (steps_addLine _).next fun _ => (steps_addLine _).next fun _ => ih

/-! ## Statements -/

mutual

theorem steps_statement (hv : Function.Injective v.rename) (definitions : Definitions)
    (targets : List String) (statement : Statement) :
    v.Steps v.Lowerings Eq (lowerStatement definitions targets statement)
      (lowerStatement (definitions.rename v.rename) targets (statement.rename v.rename)) := by
  cases statement with
  | labeled mark label body =>
    have hlabel : v.Steps v.Lowerings Eq _ _ :=
      (steps_declareLabel label.name).next fun _ =>
        (steps_start label.uid label.name).emit.next fun _ =>
          steps_statements hv definitions targets body
    simp only [Statement.rename, lowerStatement, Label.rename]
    split
    · exact steps_close.emit.next fun _ => hlabel
    · exact hlabel
  | whileDo mark condition body =>
    refine (steps_expression hv definitions condition).next fun text => ?_
    refine steps_tracker.bind fun entry entry' hentry => ?_
    refine steps_openBlock.next fun _ => ?_
    refine (steps_add (.branch _ (.line "break") .nil)).next fun _ => ?_
    refine (steps_statements hv definitions targets body).next fun _ => ?_
    rw [hentry.label]
    refine (steps_endLoop entry.label).emit.next fun _ => ?_
    refine steps_closeBlock.bind fun code code' hcode => ?_
    refine (steps_add hcode.loop).next fun _ => ?_
    refine steps_tracker.bind fun after after' hafter => ?_
    exact Steps.liftExcept (hafter.checkCompatible hv hentry)
  | ifElse mark condition yes no =>
    simp only [Statement.rename, lowerStatement, Statement.anyTransfersControl_rename]
    refine (steps_expression hv definitions condition).next fun text => ?_
    refine (steps_statements hv definitions targets yes).branch.bind fun first first' hfirst => ?_
    refine (steps_statements hv definitions targets no).branch.bind fun second second' hsecond => ?_
    refine (Steps.liftExcept (hfirst.2.checkCompatible hv hsecond.2)).next fun _ => ?_
    refine (steps_setTracker hfirst.2).next fun _ => ?_
    exact steps_add (.branch text hfirst.1 hsecond.1)
  | either mark cases =>
    simp only [Statement.rename, lowerStatement, Statement.anyCaseTransfersControl_rename,
      Statement.length_casesRename]
    refine (steps_cases hv definitions targets _ .none cases).bind ?_
    intro (codes, first) (codes', first') hresult
    have hswitch := (steps_setImports fun imports => { imports with rand := true }).next fun _ =>
      steps_add (.switch ("rand.Intn(" ++ Nat.repr cases.length ++ ")") hresult.1)
    cases hresult.2 with
    | none => exact hswitch
    | some hfirst => exact (steps_setTracker hfirst).next fun _ => hswitch
  | assign mark pairs => exact steps_assign hv definitions targets mark pairs
  | leave mark => exact steps_close.emit.next fun _ => steps_addLine "return"
  | skip mark => exact Steps.pure rfl
  | call mark target arguments =>
    simp only [Statement.rename, lowerStatement, ← Expression.listRename_eq_map]
    refine (Steps.liftExcept (Expression.listToGo_rename hv definitions arguments)).next ?_
    intro texts
    exact steps_close.emit.next fun _ => steps_addLine _
  | macroCall mark target arguments => exact fun state state' _ => .error _ state state'
  | withDo mark bindings body =>
    refine steps_openBlock.next fun _ => ?_
    refine (steps_bindings hv definitions bindings).next fun _ => ?_
    refine (steps_statements hv definitions targets body).next fun _ => ?_
    exact steps_closeBlock.bind fun code code' hcode => steps_add hcode.block
  | print mark value =>
    refine (steps_expression hv definitions value).next fun text => ?_
    refine (steps_setImports fun imports => { imports with fmt := true }).next fun _ => ?_
    exact steps_addLine _
  | assert mark value =>
    refine (steps_expression hv definitions value).next fun text => ?_
    exact steps_add (.branch _ (.line _) .nil)
  | await mark value =>
    refine (steps_expression hv definitions value).next fun text => ?_
    refine steps_abort.emit.branch.bind fun retry retry' hretry => ?_
    exact steps_add (.branch _ hretry.1 .nil)
  | goto mark target =>
    refine steps_close.emit.next fun _ => ?_
    split
    · exact steps_addLine "return"
    · exact steps_goTo target

theorem steps_statements (hv : Function.Injective v.rename) (definitions : Definitions)
    (targets : List String) (statements : List Statement) :
    v.Steps v.Lowerings Eq (lowerStatements definitions targets statements)
      (lowerStatements (definitions.rename v.rename) targets
        (Statement.listRename v.rename statements)) := by
  cases statements with
  | nil => exact Steps.pure rfl
  | cons statement rest =>
    exact (steps_statement hv definitions targets statement).next fun _ =>
      steps_statements hv definitions targets rest

theorem steps_cases (hv : Function.Injective v.rename) (definitions : Definitions)
    (targets : List String) (closeSection : Bool) {first first' : Option Tracker}
    (hfirst : Option.Rel v.Trackers first first') (cases : List (List Statement)) :
    v.Steps v.Lowerings v.Cases (lowerCases definitions targets closeSection first cases)
      (lowerCases (definitions.rename v.rename) targets closeSection first'
        (Statement.casesRename v.rename cases)) := by
  cases cases with
  | nil => exact Steps.pure ⟨.nil, hfirst⟩
  | cons body rest =>
    refine (steps_statements hv definitions targets body).branch.bind ?_
    intro (code, tracker) (code', tracker') hbody
    -- The tracker of the first case is kept, and those of later cases must agree with it.
    have hrest {kept kept' : Option Tracker} (hkept : Option.Rel v.Trackers kept kept') :
        v.Steps v.Lowerings v.Cases (do
          let (codes, first) ← lowerCases definitions targets closeSection kept rest
          pure (code :: codes, first)) (do
          let (codes, first) ← lowerCases (definitions.rename v.rename) targets closeSection kept'
            (Statement.casesRename v.rename rest)
          pure (code' :: codes, first)) :=
      (steps_cases hv definitions targets closeSection hkept rest).bind fun _ _ hresult =>
        Steps.pure ⟨.cons hbody.1 hresult.1, hresult.2⟩
    cases hfirst with
    | none => exact hrest (.some hbody.2)
    | some hfirst =>
      refine (Steps.liftExcept (hfirst.checkCompatible hv hbody.2)).next fun _ => ?_
      exact hrest (.some hfirst)

end

/-! ## Functions -/

theorem steps_body (hv : Function.Injective v.rename) (definitions : Definitions)
    (body : List Statement) :
    v.Steps v.Lowerings Eq (lowerBody definitions body)
      (lowerBody (definitions.rename v.rename) (Statement.listRename v.rename body)) := by
  simp only [lowerBody, Statement.listJumpTargets_rename]
  exact steps_statements hv definitions _ body

theorem steps_declare (name : String) (declaration : Declaration) :
    v.Steps v.Lowerings Eq (Lower.declare name declaration) (Lower.declare name declaration) :=
  (steps_addLine _).next fun _ => steps_addLine _

theorem steps_declareAll (hv : Function.Injective v.rename) (definitions : Definitions)
    (locals : List VariableDecl) :
    v.Steps v.Lowerings Eq (Lower.declareAll definitions locals)
      (Lower.declareAll (definitions.rename v.rename)
        (locals.map (VariableDecl.rename v.rename))) := by
  induction locals with
  | nil => exact Steps.pure rfl
  | cons decl rest ih =>
    refine (Steps.liftExcept (declarationOf_rename hv definitions decl)).next fun declaration => ?_
    exact (steps_declare decl.name declaration).next fun _ => ih

theorem steps_declareCopies (copies : List VariableDecl) :
    v.Steps v.Lowerings Eq (Lower.declareCopies copies)
      (Lower.declareCopies (copies.map (VariableDecl.rename v.rename))) := by
  induction copies with
  | nil => exact Steps.pure rfl
  | cons decl rest ih => exact (steps_declare decl.name _).next fun _ => ih

theorem steps_function (hv : Function.Injective v.rename) (definitions : Definitions)
    (copies locals : List VariableDecl) (body : List Statement) :
    v.Steps v.Lowerings Eq (lowerFunction definitions copies locals body)
      (lowerFunction (definitions.rename v.rename) (copies.map (VariableDecl.rename v.rename))
        (locals.map (VariableDecl.rename v.rename)) (Statement.listRename v.rename body)) := by
  refine (steps_declareCopies copies).next fun _ => ?_
  refine (steps_declareAll hv definitions locals).next fun _ => ?_
  exact (steps_body hv definitions body).next fun _ => steps_close.emit

end PlusCalGo.Go.Variation

namespace PlusCalGo.Go

/-- The state in which a body begins to be lowered under a strategy. -/
def Lowering.start (groups : LockGroups) (strategy : Strategy) (owner : Uid) (imports : Imports) :
    Lowering :=
  ⟨⟨Tracker.new ⟨0, groups⟩ ⟨0, strategy⟩ owner, Builder.empty⟩, 0, imports⟩

/-- States in which bodies begin belong together if the labels have the same groups. -/
theorem Variation.lowerings_start (v : Variation) {groups otherGroups : LockGroups}
    (hgroups : ∀ label, otherGroups.groupOf? (v.rename label) = groups.groupOf? label)
    (owner : Uid) (imports : Imports) :
    v.Lowerings (.start groups v.first owner imports)
      (.start otherGroups v.second (v.rename owner) imports) where
  emission := {
    tracker := ⟨rfl, hgroups, rfl, rfl, rfl, rfl, rfl, rfl⟩
    builder := ⟨.nil, .nil, rfl, rfl⟩ }
  nextTemporary := rfl
  imports := rfl

end PlusCalGo.Go
