import Mathlib.Data.List.Induction
import PlusCalGo.Proofs.Go.Erasure

/-!
# Building blocks

A builder is worked with in any way, successful or not. What is added stands in the block that is
open at that point, in order, and comes out when the block is closed or the body is finished.
-/

namespace PlusCalGo.Go

/-- An element between others stands in the front or in the back of them. -/
theorem split_append {α : Type} {front back before rest : List α} {x : α}
    (h : front ++ back = before ++ x :: rest) :
    (∃ between, front = before ++ x :: between ∧ rest = between ++ back) ∨
      ∃ between, back = between ++ x :: rest ∧ before = front ++ between := by
  rcases List.append_eq_append_iff.1 h with ⟨between, hbefore, hback⟩ | ⟨between, hfront, hrest⟩
  · exact .inr ⟨between, hback, hbefore⟩
  · cases between with
    | nil => exact .inr ⟨[], hrest.symm, by rw [hfront, List.append_nil, List.append_nil]⟩
    | cons first between =>
      obtain ⟨rfl, rfl⟩ := List.cons.inj hrest
      exact .inl ⟨between, hfront, rfl⟩

/-! ## Steps of building -/

/-- An operation on the builder of a body. -/
inductive BuildStep where
  | add (code : SectionCode)
  | declareLabel (name : String)
  | goTo (name : String)
  | openBlock
  | closeBlock

namespace BuildStep

def perform : BuildStep → Lower Unit
  | add code => Lower.add code
  | declareLabel name => Lower.declareLabel name
  | goTo name => Lower.goTo name
  | openBlock => Lower.openBlock
  | closeBlock => do
    let _ ← Lower.closeBlock
    pure ()

/-- The label that the step declares. -/
def label? : BuildStep → Option String
  | declareLabel name => some name
  | add _ | goTo _ | openBlock | closeBlock => none

/-- The statements that the step adds to its block, after some earlier steps. A label is added by
the first step that declares it. -/
def added (earlier : List BuildStep) : BuildStep → List SectionCode
  | add code => [code]
  | declareLabel name => if name ∈ earlier.filterMap label? then [] else [.label name]
  | goTo name => [.goto name]
  | openBlock | closeBlock => []

/-- After some earlier steps come steps that close the blocks that they open and no others. The
statements are those that the steps add outside of their blocks. -/
inductive Matched : List BuildStep → List BuildStep → List SectionCode → Prop where
  | nil {earlier : List BuildStep} : Matched earlier [] []
  | step {earlier steps : List BuildStep} {code : List SectionCode} {step : BuildStep} :
      Matched earlier steps code → step ≠ openBlock → step ≠ closeBlock →
      Matched earlier (steps ++ [step]) (code ++ step.added (earlier ++ steps))
  | block {earlier steps inner : List BuildStep} {code body : List SectionCode} :
      Matched earlier steps code → Matched (earlier ++ steps ++ [openBlock]) inner body →
      Matched earlier (steps ++ openBlock :: (inner ++ [closeBlock])) code

/-- Steps that close all blocks that they open, with the statements that they add outside of these.
Where no block is open, closing one is refused. -/
inductive Outermost : List BuildStep → List SectionCode → Prop where
  | matched {steps : List BuildStep} {code : List SectionCode} :
      Matched [] steps code → Outermost steps code
  | refused {steps more : List BuildStep} {code added : List SectionCode} :
      Outermost steps code → Matched (steps ++ [closeBlock]) more added →
      Outermost (steps ++ closeBlock :: more) (code ++ added)

/-- Some block has been opened and not been closed. -/
def BlockOpen (steps : List BuildStep) : Prop :=
  ∃ before inner body, steps = before ++ openBlock :: inner ∧
    Matched (before ++ [openBlock]) inner body

/-- Every block that was opened has been closed. -/
def BlocksClosed (steps : List BuildStep) : Prop :=
  ∀ before rest, steps = before ++ openBlock :: rest → ∃ inner body after,
    rest = inner ++ closeBlock :: after ∧ Matched (before ++ [openBlock]) inner body

end BuildStep

/-- What an operation leaves, whether or not it goes well. -/
def Lower.outcome (operation : Lower Unit) (state : Lowering) : Lowering :=
  match operation state with
  | .ok _ after | .error _ after => after

/-- Works through the steps, also where some of them fail. -/
def Lowering.build (state : Lowering) (steps : List BuildStep) : Lowering :=
  steps.foldl (fun state step => step.perform.outcome state) state

/-- The blocks of a builder that are open, innermost last. -/
def Builder.blocks {κ : Type} (builder : Builder κ) : List (List (Code κ)) :=
  builder.enclosing.reverse ++ [builder.current]

/-! ## Single steps -/

def Lowering.setBuilder (state : Lowering) (builder : Builder SectionCall) : Lowering :=
  { state with emission := { state.emission with builder := builder } }

theorem Lower.declareLabel_eq (name : String) (state : Lowering) :
    Lower.declareLabel name state =
      if name ∈ state.emission.builder.labels then
        .error (.of (.codeLabelRedeclared name)) state
      else .ok () (state.setBuilder
        { state.emission.builder with
          current := state.emission.builder.current ++ [.label name]
          labels := name :: state.emission.builder.labels }) := by
  by_cases h : name ∈ state.emission.builder.labels
  · simp [h, Lower.declareLabel, Lower.emit, Builder.declareLabel, Emit.liftExcept, bind,
      EStateM.bind, get, getThe, MonadStateOf.get, EStateM.get, throw, throwThe,
      MonadExceptOf.throw, EStateM.throw]
  · simp [h, Lower.declareLabel, Lower.emit, Builder.declareLabel, Builder.add, Emit.liftExcept,
      bind, EStateM.bind, get, getThe, MonadStateOf.get, EStateM.get, pure, EStateM.pure, modify,
      modifyGet, MonadStateOf.modifyGet, EStateM.modifyGet, Lowering.setBuilder]

theorem Lower.closeBlock_eq (state : Lowering) :
    Lower.closeBlock state =
      match state.emission.builder.enclosing with
      | [] => .error (.of .blockNotOpen) state
      | outer :: enclosing => .ok state.emission.builder.current (state.setBuilder
          { state.emission.builder with current := outer, enclosing := enclosing }) := by
  cases h : state.emission.builder.enclosing with
  | nil =>
    simp [h, Lower.closeBlock, Lower.emit, Builder.closeBlock, Emit.liftExcept, bind, EStateM.bind,
      get, getThe, MonadStateOf.get, EStateM.get, throw, throwThe, MonadExceptOf.throw,
      EStateM.throw]
  | cons outer enclosing =>
    simp [h, Lower.closeBlock, Lower.emit, Builder.closeBlock, Emit.liftExcept, bind, EStateM.bind,
      get, getThe, MonadStateOf.get, EStateM.get, pure, EStateM.pure, modify, modifyGet,
      MonadStateOf.modifyGet, EStateM.modifyGet, Lowering.setBuilder]

namespace BuildStep

theorem mem_filterMap_label? {name : String} {steps : List BuildStep} :
    name ∈ steps.filterMap label? ↔ .declareLabel name ∈ steps := by
  rw [List.mem_filterMap]
  constructor
  · intro h
    obtain ⟨step, hstep, hname⟩ := h
    cases step <;> cases hname
    exact hstep
  · intro h
    exact ⟨_, h, rfl⟩

/-- What the step makes of a builder. -/
def apply (builder : Builder SectionCall) : BuildStep → Builder SectionCall
  | add code => builder.add code
  | declareLabel name =>
    if name ∈ builder.labels then builder
    else { builder with
      current := builder.current ++ [.label name]
      labels := name :: builder.labels }
  | goTo name => builder.goTo name
  | openBlock => builder.openBlock
  | closeBlock =>
    match builder.enclosing with
    | [] => builder
    | outer :: enclosing => { builder with current := outer, enclosing := enclosing }

theorem outcome_perform (step : BuildStep) (state : Lowering) :
    step.perform.outcome state = state.setBuilder (step.apply state.emission.builder) := by
  cases step with
  | add code => rfl
  | declareLabel name =>
    rw [perform, Lower.outcome, Lower.declareLabel_eq, apply]
    by_cases h : name ∈ state.emission.builder.labels
    · simp [h, Lowering.setBuilder]
    · simp [h]
  | goTo name => rfl
  | openBlock => rfl
  | closeBlock =>
    rw [perform, Lower.outcome, Lower.bind_apply, Lower.closeBlock_eq, apply]
    cases h : state.emission.builder.enclosing with
    | nil => rfl
    | cons outer enclosing => rfl

/-- The builder that steps lead to, from a new one. -/
def built (steps : List BuildStep) : Builder SectionCall := steps.foldl apply .empty

theorem built_concat (steps : List BuildStep) (step : BuildStep) :
    built (steps ++ [step]) = step.apply (built steps) := by
  rw [built, built, List.foldl_append]
  rfl

theorem builder_build (state : Lowering) (steps : List BuildStep) :
    ((state.setBuilder .empty).build steps).emission.builder = built steps := by
  induction steps using List.reverseRecOn with
  | nil => rfl
  | append_singleton steps step ih =>
    rw [Lowering.build, List.foldl_append, List.foldl_cons, List.foldl_nil, outcome_perform,
      built_concat, ← ih]
    rfl

/-- What one kind of step puts into a list of the builder, and nothing else does, is there if the
step is one of those that were made. -/
private theorem mem_built_iff {names : Builder SectionCall → List String} {name : String}
    {source : BuildStep} (hempty : name ∉ names .empty)
    (hstep : ∀ (step : BuildStep) builder,
      name ∈ names (step.apply builder) ↔ name ∈ names builder ∨ source = step)
    (steps : List BuildStep) : name ∈ names (built steps) ↔ source ∈ steps := by
  induction steps using List.reverseRecOn with
  | nil => exact iff_of_false hempty List.not_mem_nil
  | append_singleton steps step ih =>
    rw [built_concat, hstep, ih, List.mem_append, List.mem_singleton]

theorem mem_labels_built {name : String} {steps : List BuildStep} :
    name ∈ (built steps).labels ↔ .declareLabel name ∈ steps := by
  refine mem_built_iff List.not_mem_nil (fun step builder => ?_) steps
  cases step with
  | declareLabel other =>
    rw [apply]
    split
    · rename_i hdeclared
      refine (or_iff_left_of_imp ?_).symm
      rintro ⟨⟩
      exact hdeclared
    · simp [or_comm]
  | closeBlock =>
    rw [apply]
    split <;> simp
  | add code => simp [apply, Builder.add]
  | goTo target => simp [apply, Builder.goTo, Builder.add]
  | openBlock => simp [apply, Builder.openBlock]

theorem mem_targets_built {name : String} {steps : List BuildStep} :
    name ∈ (built steps).targets ↔ .goTo name ∈ steps := by
  refine mem_built_iff List.not_mem_nil (fun step builder => ?_) steps
  cases step with
  | declareLabel other =>
    rw [apply]
    split <;> simp
  | closeBlock =>
    rw [apply]
    split <;> simp
  | add code => simp [apply, Builder.add]
  | goTo target => simp [apply, Builder.goTo, Builder.add, or_comm]
  | openBlock => simp [apply, Builder.openBlock]

end BuildStep

/-! ## A plain stack -/

/-- A builder as a stack of blocks that may be empty, innermost last. -/
structure BlockStack where
  blocks : List (List SectionCode)
  labels : List String
  targets : List String

def Builder.stack (builder : Builder SectionCall) : BlockStack :=
  ⟨builder.blocks, builder.labels, builder.targets⟩

namespace BlockStack

/-- A statement goes to the innermost block. It is dropped if there is none. -/
def add (stack : BlockStack) (code : SectionCode) : BlockStack :=
  match stack.blocks.getLast? with
  | some block => { stack with blocks := stack.blocks.dropLast ++ [block ++ [code]] }
  | none => stack

/-- What a step makes of a stack. The last block is never taken off. -/
def perform (stack : BlockStack) : BuildStep → BlockStack
  | .add code => stack.add code
  | .declareLabel name =>
    if name ∈ stack.labels then stack
    else { stack with labels := name :: stack.labels }.add (.label name)
  | .goTo name => { stack with targets := name :: stack.targets }.add (.goto name)
  | .openBlock => { stack with blocks := stack.blocks ++ [[]] }
  | .closeBlock =>
    if stack.blocks.length < 2 then stack else { stack with blocks := stack.blocks.dropLast }

/-- The stack that steps lead to, from one with a single block. -/
def run (steps : List BuildStep) : BlockStack := steps.foldl perform ⟨[[]], [], []⟩

section Stack

variable {stack : BlockStack}

theorem add_eq {outer : List (List SectionCode)} {inner : List SectionCode}
    (h : stack.blocks = outer ++ [inner]) (code : SectionCode) :
    stack.add code = { stack with blocks := outer ++ [inner ++ [code]] } := by
  rw [add, h, List.getLast?_concat, List.dropLast_concat]

theorem add_ne_nil (stack : BlockStack) (h : stack.blocks ≠ []) (code : SectionCode) :
    (stack.add code).blocks ≠ [] := by
  obtain ⟨outer, inner, hblocks⟩ := (List.eq_nil_or_concat' _).resolve_left h
  simp [add_eq hblocks]

theorem perform_ne_nil (h : stack.blocks ≠ []) (step : BuildStep) :
    (stack.perform step).blocks ≠ [] := by
  cases step with
  | add code => exact add_ne_nil stack h code
  | declareLabel name =>
    rw [perform]
    split
    · exact h
    · exact add_ne_nil { stack with labels := name :: stack.labels } h (.label name)
  | goTo name => exact add_ne_nil { stack with targets := name :: stack.targets } h (.goto name)
  | openBlock => simp [perform]
  | closeBlock =>
    rw [perform]
    split
    · exact h
    · rename_i hlength
      intro hnil
      have hshort := congrArg List.length hnil
      rw [List.length_dropLast, List.length_nil] at hshort
      omega

/-- However a stack is worked with, there is a block to add to. -/
theorem run_ne_nil (steps : List BuildStep) : (run steps).blocks ≠ [] := by
  induction steps using List.reverseRecOn with
  | nil => simp [run]
  | append_singleton steps step ih =>
    rw [run, List.foldl_append]
    exact perform_ne_nil ih step

end Stack

end BlockStack

theorem Builder.stack_apply (builder : Builder SectionCall) (step : BuildStep) :
    (step.apply builder).stack = builder.stack.perform step := by
  have hadd (builder : Builder SectionCall) (code : SectionCode) :
      (builder.add code).stack = builder.stack.add code := by
    have hblocks : builder.stack.blocks = builder.enclosing.reverse ++ [builder.current] := rfl
    rw [BlockStack.add_eq hblocks]
    rfl
  cases step with
  | add code => exact hadd builder code
  | declareLabel name =>
    rw [BuildStep.apply, BlockStack.perform]
    have hlabels : builder.stack.labels = builder.labels := rfl
    rw [hlabels]
    split
    · rfl
    · exact hadd { builder with labels := name :: builder.labels } (.label name)
  | goTo name => exact hadd { builder with targets := name :: builder.targets } (.goto name)
  | openBlock => simp [BuildStep.apply, openBlock, stack, blocks, BlockStack.perform]
  | closeBlock =>
    rw [BuildStep.apply]
    cases h : builder.enclosing with
    | nil => simp [BlockStack.perform, stack, blocks, h]
    | cons outer enclosing => simp [BlockStack.perform, stack, blocks, h]

namespace BuildStep

/-- A builder has the blocks that a plain stack has after the same steps. -/
theorem stack_built (steps : List BuildStep) : (built steps).stack = BlockStack.run steps := by
  induction steps using List.reverseRecOn with
  | nil => rfl
  | append_singleton steps step ih =>
    rw [built_concat, Builder.stack_apply, ih, BlockStack.run, BlockStack.run, List.foldl_append]
    rfl

/-! ## Blocks that are closed -/

section Matched

variable {earlier steps before rest : List BuildStep} {code : List SectionCode} {step : BuildStep}

/-- Inside of a block, a step adds its statements at the end. -/
theorem current_built (earlier : List BuildStep) (hopen : step ≠ openBlock)
    (hclose : step ≠ closeBlock) :
    (built (earlier ++ [step])).current = (built earlier).current ++ step.added earlier ∧
      (built (earlier ++ [step])).enclosing = (built earlier).enclosing := by
  rw [built_concat]
  cases step with
  | add code => exact ⟨rfl, rfl⟩
  | declareLabel name =>
    have hlabels : name ∈ (built earlier).labels ↔ name ∈ earlier.filterMap label? := by
      rw [mem_labels_built, mem_filterMap_label?]
    simp only [apply, added, hlabels]
    split
    · simp
    · exact ⟨rfl, rfl⟩
  | goTo name => exact ⟨rfl, rfl⟩
  | openBlock => exact (hopen rfl).elim
  | closeBlock => exact (hclose rfl).elim

theorem built_open (steps : List BuildStep) :
    (built (steps ++ [openBlock])).current = [] ∧
      (built (steps ++ [openBlock])).enclosing =
        (built steps).current :: (built steps).enclosing := by
  rw [built_concat]
  exact ⟨rfl, rfl⟩

theorem built_close {outer : List SectionCode} {enclosing : List (List SectionCode)}
    (h : (built steps).enclosing = outer :: enclosing) :
    (built (steps ++ [closeBlock])).current = outer ∧
      (built (steps ++ [closeBlock])).enclosing = enclosing := by
  rw [built_concat, apply, h]
  exact ⟨rfl, rfl⟩

/-- Steps that close their blocks leave the blocks around them alone, and add their own statements
to the innermost one. -/
theorem Matched.frame (h : Matched earlier steps code) :
    (built (earlier ++ steps)).current = (built earlier).current ++ code ∧
      (built (earlier ++ steps)).enclosing = (built earlier).enclosing := by
  induction h with
  | nil => simp
  | step _ hopen hclose ih =>
    obtain ⟨hcurrent, henclosing⟩ := ih
    obtain ⟨hadded, hsame⟩ := current_built (_ ++ _) hopen hclose
    rw [← List.append_assoc, hadded, hsame, hcurrent, henclosing, List.append_assoc]
    exact ⟨rfl, rfl⟩
  | @block earlier steps inner code body _ _ ihouter ihinner =>
    obtain ⟨hcurrent, henclosing⟩ := ihouter
    obtain ⟨_, hinside⟩ := ihinner
    rw [(built_open (earlier ++ steps)).2] at hinside
    have hclosed := built_close hinside
    rw [hcurrent, henclosing] at hclosed
    simpa using hclosed

/-- As long as steps close only blocks of their own, the blocks around stay open. -/
theorem Matched.suffix (h : Matched earlier steps code) {front : List BuildStep}
    (hfront : front <+: steps) :
    (built earlier).enclosing <:+ (built (earlier ++ front)).enclosing := by
  induction h generalizing front with
  | nil =>
    rw [List.prefix_nil.1 hfront, List.append_nil]
  | step hsteps hopen hclose ih =>
    rcases List.prefix_concat_iff.1 hfront with rfl | hfront
    · rw [(hsteps.step hopen hclose).frame.2]
    · exact ih hfront
  | @block earlier steps inner code body hsteps hinner ihouter ihinner =>
    have hinside : (built earlier).enclosing <:+
        (built (earlier ++ steps ++ [openBlock])).enclosing := by
      rw [(built_open _).2, hsteps.frame.2]
      exact List.suffix_cons _ _
    rcases List.prefix_or_prefix_of_prefix hfront (List.prefix_append steps _) with
      hfront | ⟨more, rfl⟩
    · exact ihouter hfront
    · rw [List.prefix_append_right_inj, List.prefix_cons_iff] at hfront
      rcases hfront with rfl | ⟨more, rfl, hmore⟩
      · exact ihouter (by simp)
      · rcases List.prefix_concat_iff.1 hmore with rfl | hmore
        · rw [(hsteps.block hinner).frame.2]
        · have hlast := hinside.trans (ihinner hmore)
          simpa using hlast

private theorem split_concat {α : Type} {front before rest : List α} {last x : α}
    (h : front ++ [last] = before ++ x :: rest) (hne : last ≠ x) :
    ∃ between, front = before ++ x :: between ∧ rest = between ++ [last] := by
  rcases split_append h with hfront | ⟨between, hlast, _⟩
  · exact hfront
  · rcases List.cons_eq_append_iff.1 hlast with ⟨_, hx⟩ | ⟨_, _, hnil⟩
    · exact (hne (List.cons.inj hx).1.symm).elim
    · simp at hnil

/-- The blocks that are opened in matched steps are closed in them. -/
theorem Matched.closed (h : Matched earlier steps code)
    (heq : steps = before ++ openBlock :: rest) :
    ∃ inner body after, rest = inner ++ closeBlock :: after ∧
      Matched (earlier ++ before ++ [openBlock]) inner body := by
  induction h generalizing before rest with
  | nil => simp at heq
  | step _ hopen _ ih =>
    obtain ⟨between, hsteps, rfl⟩ := split_concat heq hopen
    obtain ⟨inner, body, after, rfl, hinner⟩ := ih hsteps
    exact ⟨inner, body, _, List.append_assoc .., hinner⟩
  | @block earlier steps within code own hsteps hwithin ihouter ihinner =>
    rcases split_append heq with ⟨between, hsteps, rfl⟩ | ⟨between, hlater, rfl⟩
    · obtain ⟨inner, body, after, rfl, hinner⟩ := ihouter hsteps
      exact ⟨inner, body, _, List.append_assoc .., hinner⟩
    · rcases List.cons_eq_append_iff.1 hlater with ⟨rfl, hfirst⟩ | ⟨before, rfl, hinside⟩
      · obtain ⟨_, rfl⟩ := List.cons.inj hfirst
        exact ⟨within, own, [], rfl, by simpa using hwithin⟩
      · obtain ⟨between, hbefore, rfl⟩ := split_concat hinside (by simp)
        obtain ⟨inner, body, after, rfl, hinner⟩ := ihinner hbefore
        exact ⟨inner, body, _, List.append_assoc .., by simpa using hinner⟩

end Matched

/-! ## The stack of blocks -/

/-- The innermost block that is open after some steps, and the blocks around it, each with the
statements that were added in it. -/
inductive Stacked : List BuildStep → List SectionCode → List (List SectionCode) → Prop where
  | outermost {steps : List BuildStep} {code : List SectionCode} :
      Outermost steps code → Stacked steps code []
  | inside {before inner : List BuildStep} {outer body : List SectionCode}
      {enclosing : List (List SectionCode)} :
      Stacked before outer enclosing → Matched (before ++ [openBlock]) inner body →
      Stacked (before ++ openBlock :: inner) body (outer :: enclosing)

section Stacked

variable {steps inner : List BuildStep} {last : BuildStep} {current outer body : List SectionCode}
  {enclosing : List (List SectionCode)}

theorem Outermost.step (h : Outermost steps current) (hopen : last ≠ openBlock)
    (hclose : last ≠ closeBlock) : Outermost (steps ++ [last]) (current ++ last.added steps) := by
  cases h with
  | matched h => exact .matched (h.step hopen hclose)
  | @refused steps more code added h hmore =>
    have hstep := h.refused (hmore.step hopen hclose)
    simpa using hstep

theorem Outermost.block (h : Outermost steps current)
    (hinner : Matched (steps ++ [openBlock]) inner body) :
    Outermost (steps ++ openBlock :: (inner ++ [closeBlock])) current := by
  cases h with
  | matched h => exact .matched (h.block hinner)
  | @refused steps more code added h hmore =>
    have hblock := h.refused (hmore.block (by simpa using hinner))
    simpa using hblock

theorem Stacked.step (h : Stacked steps current enclosing) (hopen : last ≠ openBlock)
    (hclose : last ≠ closeBlock) :
    Stacked (steps ++ [last]) (current ++ last.added steps) enclosing := by
  cases h with
  | outermost h => exact .outermost (h.step hopen hclose)
  | inside houter hinner =>
    have hstep := houter.inside (hinner.step hopen hclose)
    simpa using hstep

theorem Stacked.open (h : Stacked steps current enclosing) :
    Stacked (steps ++ [openBlock]) [] (current :: enclosing) :=
  h.inside .nil

theorem Stacked.close (h : Stacked steps current (outer :: enclosing)) :
    Stacked (steps ++ [closeBlock]) outer enclosing := by
  cases h with
  | inside houter hinner =>
    cases houter with
    | outermost houter =>
      have hblock := Stacked.outermost (houter.block hinner)
      simpa using hblock
    | inside houtermost houter =>
      have hblock := houtermost.inside (houter.block (by simpa using hinner))
      simpa using hblock

/-- Closing a block is refused where none is open, and changes nothing. -/
theorem Stacked.refuse (h : Stacked steps current []) :
    Stacked (steps ++ [closeBlock]) current [] := by
  cases h with
  | outermost h =>
    have hrefused := Stacked.outermost (h.refused .nil)
    simpa using hrefused

/-- At any time, the blocks that are open have the statements that were added in them. -/
theorem stacked_built (steps : List BuildStep) :
    Stacked steps (built steps).current (built steps).enclosing := by
  induction steps using List.reverseRecOn with
  | nil => exact .outermost (.matched .nil)
  | append_singleton steps step ih =>
    by_cases hopen : step = openBlock
    · subst hopen
      rw [(built_open steps).1, (built_open steps).2]
      exact ih.open
    by_cases hclose : step = closeBlock
    · subst hclose
      cases henclosing : (built steps).enclosing with
      | nil =>
        rw [henclosing] at ih
        have hrefused := ih.refuse
        simpa [built_concat, apply, henclosing] using hrefused
      | cons outer enclosing =>
        rw [henclosing] at ih
        rw [(built_close henclosing).1, (built_close henclosing).2]
        exact ih.close
    · rw [(current_built steps hopen hclose).1, (current_built steps hopen hclose).2]
      exact ih.step hopen hclose

theorem blockOpen_iff : BlockOpen steps ↔ (built steps).enclosing ≠ [] := by
  constructor
  · intro h
    obtain ⟨before, inner, body, rfl, hinner⟩ := h
    have hframe := hinner.frame.2
    rw [(built_open before).2] at hframe
    simp_all
  · intro h
    have hstacked := stacked_built steps
    generalize (built steps).current = body, (built steps).enclosing = blocks at hstacked h
    cases hstacked with
    | outermost _ => exact (h rfl).elim
    | inside _ hinner => exact ⟨_, _, _, rfl, hinner⟩

theorem Outermost.blocksClosed (h : Outermost steps current) : BlocksClosed steps := by
  induction h with
  | matched h => exact fun before rest heq => h.closed heq
  | @refused steps more _ _ _ hmore ih =>
    intro before rest heq
    rcases split_append heq with ⟨between, hsteps, rfl⟩ | ⟨between, hlater, rfl⟩
    · obtain ⟨inner, body, after, rfl, hinner⟩ := ih before between hsteps
      exact ⟨inner, body, _, List.append_assoc .., hinner⟩
    · rcases List.cons_eq_append_iff.1 hlater with ⟨_, hfirst⟩ | ⟨before, rfl, hinside⟩
      · cases (List.cons.inj hfirst).1
      · obtain ⟨inner, body, after, rfl, hinner⟩ := hmore.closed hinside
        exact ⟨inner, body, after, rfl, by simpa using hinner⟩

theorem blocksClosed_iff : BlocksClosed steps ↔ (built steps).enclosing = [] := by
  have hstacked := stacked_built steps
  constructor
  · intro h
    by_contra hopen
    obtain ⟨before, inner, body, rfl, hinner⟩ := blockOpen_iff.2 hopen
    obtain ⟨closed, body, after, rfl, hclosed⟩ := h before inner rfl
    -- Closing the block takes away what has to stay as long as the block is open.
    have hfront : closed ++ [closeBlock] <+: closed ++ closeBlock :: after := by simp
    have hstays := hinner.suffix hfront
    have hframe := hclosed.frame.2
    rw [(built_open before).2] at hstays hframe
    rw [← List.append_assoc, (built_close hframe).2] at hstays
    simpa using hstays.length_le
  · intro h
    rw [h] at hstacked
    cases hstacked with
    | outermost houtermost => exact houtermost.blocksClosed

/-- The statements that are added outside of all blocks stand in the outermost one. -/
theorem Outermost.current_eq (h : Outermost steps current) : (built steps).current = current := by
  induction h with
  | matched h => simpa [built, Builder.empty] using h.frame.1
  | @refused steps more code added h hmore ih =>
    have hclosed := blocksClosed_iff.1 h.blocksClosed
    have hframe := hmore.frame.1
    rw [built_concat, apply, hclosed] at hframe
    simpa [ih] using hframe

theorem outermost_iff (h : (built steps).enclosing = []) :
    Outermost steps current ↔ current = (built steps).current := by
  constructor
  · intro houtermost
    exact houtermost.current_eq.symm
  · rintro rfl
    have hstacked := stacked_built steps
    rw [h] at hstacked
    cases hstacked with
    | outermost houtermost => exact houtermost

end Stacked

end BuildStep

/-! ## Bodies that are built -/

open BuildStep

/-- What some steps have made of the body that is built, and what the next one does. -/
structure Lowering.Accounts (steps : List BuildStep) (state : Lowering) : Prop where
  /-- The stack of blocks is never empty, and a statement goes to the end of the innermost one. -/
  adds : ∀ code, ∃ outer inner, state.emission.builder.blocks = outer ++ [inner] ∧
    ((Lower.add code).outcome state).emission.builder.blocks = outer ++ [inner ++ [code]]
  /-- An operation that fails changes nothing. -/
  fails : ∀ (step : BuildStep) problem after, step.perform state = .error problem after →
    after = state
  /-- A label is refused exactly if it has been declared. -/
  declares : ∀ name, (∃ problem after, Lower.declareLabel name state = .error problem after) ↔
    .declareLabel name ∈ steps
  /-- Closing a block is refused exactly if none is open. -/
  closes : (∃ problem after, Lower.closeBlock state = .error problem after) ↔ ¬ BlockOpen steps
  /-- It gives the statements added since the block was opened and not inside of an inner one. -/
  returns : ∀ before inner body, steps = before ++ .openBlock :: inner →
    Matched (before ++ [.openBlock]) inner body → ∃ after, Lower.closeBlock state = .ok body after
  /-- The body can be finished exactly if all blocks are closed and all jumps have labels. -/
  finishes : (∃ result, state.emission.builder.finish = .ok result) ↔
    BlocksClosed steps ∧ ∀ name, .goTo name ∈ steps → .declareLabel name ∈ steps
  /-- It then has the statements that were added outside of all blocks. -/
  finished : ∀ result, state.emission.builder.finish = .ok result →
    ∀ code, Outermost steps code ↔ code = result.code

theorem BuildStep.perform_error {step : BuildStep} {state after : Lowering} {problem : Diagnostic}
    (h : step.perform state = .error problem after) : after = state := by
  cases step with
  | declareLabel name =>
    rw [perform, Lower.declareLabel_eq] at h
    split at h <;> cases h
    rfl
  | closeBlock =>
    rw [perform, Lower.bind_apply, Lower.closeBlock_eq] at h
    cases henclosing : state.emission.builder.enclosing with
    | nil =>
      rw [henclosing] at h
      cases h
      rfl
    | cons outer enclosing =>
      rw [henclosing] at h
      cases h
  | add code => cases h
  | goTo name => cases h
  | openBlock => cases h

/-- However a new builder is worked with, whether or not the operations succeed, nothing is lost and
nothing changes its place: there is always a block to add to, failing operations change nothing,
blocks come out with what was added in them, and the finished body has what was added outside of all
blocks. -/
theorem Lowering.build_accounts (state : Lowering) (steps : List BuildStep) :
    ((state.setBuilder .empty).build steps).Accounts steps := by
  have hbuilder := builder_build state steps
  generalize (state.setBuilder .empty).build steps = state at hbuilder
  refine ⟨?_, fun _ _ _ => perform_error, ?_, ?_, ?_, ?_, ?_⟩
  · intro code
    have hnever := BlockStack.run_ne_nil steps
    rw [← stack_built, ← hbuilder] at hnever
    obtain ⟨outer, inner, hblocks⟩ := (List.eq_nil_or_concat' _).resolve_left hnever
    have hadded := Builder.stack_apply state.emission.builder (.add code)
    rw [BlockStack.perform, BlockStack.add_eq hblocks] at hadded
    exact ⟨outer, inner, hblocks, congrArg BlockStack.blocks hadded⟩
  · intro name
    rw [← mem_labels_built, ← hbuilder, Lower.declareLabel_eq]
    split <;> simp_all
  · rw [blockOpen_iff, ← hbuilder, not_not, Lower.closeBlock_eq]
    split <;> simp_all
  · rintro before inner body rfl hinner
    obtain ⟨hcurrent, henclosing⟩ := hinner.frame
    rw [(built_open before).1, List.nil_append, List.append_assoc] at hcurrent
    rw [(built_open before).2, List.append_assoc] at henclosing
    rw [Lower.closeBlock_eq, hbuilder, ← hcurrent]
    simp only [List.singleton_append] at henclosing ⊢
    rw [henclosing]
    exact ⟨_, rfl⟩
  · simp only [blocksClosed_iff, ← mem_labels_built, ← mem_targets_built, ← hbuilder,
      Builder.finish_ok_iff]
    exact ⟨fun ⟨_, hclosed, hlabels, _⟩ => ⟨hclosed, hlabels⟩,
      fun ⟨hclosed, hlabels⟩ => ⟨_, hclosed, hlabels, rfl⟩⟩
  · intro result hresult code
    obtain ⟨hclosed, _, rfl⟩ := Builder.finish_ok_iff.1 hresult
    rw [hbuilder] at hclosed ⊢
    exact outermost_iff hclosed

end PlusCalGo.Go
