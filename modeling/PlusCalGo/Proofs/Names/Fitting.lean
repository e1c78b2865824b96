import PlusCalGo.Go.Program
import PlusCalGo.Proofs.Names.Words
import PlusCalGo.Proofs.Resolution.Sight

/-!
# Blocks that fit scopes

The blocks around a piece of Go code fit the scopes around the part of the algorithm it is made
from: what is in sight there has its variable here, and what the back end relies on is declared.
-/

namespace PlusCalGo

/-! ## Scopes -/

namespace Scopes

variable {scopes : Scopes} {name : String} {declaration : Uid}

@[simp] theorem lookup_enter (scopes : Scopes) (name : String) :
    scopes.enter.lookup name = scopes.lookup name := rfl

theorem lookup_add_self (scopes : Scopes) (name : String) (declaration : Uid) :
    (scopes.add name declaration).lookup name = some declaration := by
  simp [lookup, add]

theorem lookup_add_ne (scopes : Scopes) {name other : String} (h : name ≠ other)
    (declaration : Uid) : (scopes.add name declaration).lookup other = scopes.lookup other := by
  rw [lookup, lookup, add, List.findSome?_cons, List.findSome?_cons,
    List.find?_cons_of_neg (by simpa using h)]

theorem not_fresh_add (scopes : Scopes) (name : String) (declaration : Uid) :
    ¬ (scopes.add name declaration).Fresh name :=
  fun h => h (name, declaration) List.mem_cons_self rfl

theorem Fresh.of_add {other : String} (h : (scopes.add name declaration).Fresh other) :
    scopes.Fresh other :=
  fun entry hmem => h entry (List.mem_cons_of_mem _ hmem)

end Scopes

namespace Go

/-- The variable of a declaration in Go. Under a state service, that of a global is its copy. -/
def variableOf (strategy : Strategy) (definition : Definition) : Declared :=
  match definition.kind, strategy with
  | .processSelf, _ => .self
  | .global _, .coordinated _ => .copy definition.name
  | _, _ => .source definition.uid

theorem variableOf_cases (strategy : Strategy) (definition : Definition) :
    variableOf strategy definition = .self ∨
      variableOf strategy definition = .copy definition.name ∨
      variableOf strategy definition = .source definition.uid := by
  unfold variableOf
  split
  · exact .inl rfl
  · exact .inr (.inl rfl)
  · exact .inr (.inr rfl)

/-- Where a name is put in by the back end, it is one of these. -/
inductive FunctionContext.Relies (context : FunctionContext) : String → Declared → Prop
  | self : Relies context "self" .self
  | locks (hstrategy : context.strategy = .inProcess) (hcount : 0 < context.groups.count) :
    Relies context lockArray .locks
  | service {shared : List (LockGroup × SharedGlobals)}
    (hstrategy : context.strategy = .coordinated shared) : Relies context globalState .service
  | copy {decl : VariableDecl} (hdecl : decl ∈ context.copies) :
    Relies context decl.name (.copy decl.name)

namespace FunctionContext

variable {context : FunctionContext} {scopes : Scopes} {blocks : Blocks} {inner block : Block}
  {name : String} {declared : Declared}

/-- What the author of an algorithm declares can take away what the back end relies on. -/
theorem Relies.rivals_source (h : context.Relies name declared) (declaration : Uid) :
    .source declaration ≠ declared ∧ declared.Rivals (.source declaration) := by
  cases h <;> exact ⟨by simp, rfl⟩

/-- What is in sight has its variable. Only what the back end declares can take its name. -/
def Shows (context : FunctionContext) (scopes : Scopes) (blocks : Blocks) : Prop :=
  ∀ name declaration, scopes.lookup name = some declaration → ∃ definition,
    context.definitions.find? declaration = some definition ∧ definition.name = name ∧
      blocks.Hosts name (variableOf context.strategy definition)
        (variableOf context.strategy definition).Hides

structure Fits (context : FunctionContext) (scopes : Scopes) (blocks : Blocks) : Prop where
  shows : context.Shows scopes blocks
  relied : ∀ name declared, context.Relies name declared →
    blocks.Hosts name declared declared.Rivals
  /-- What the innermost block declares for the algorithm is in the innermost scope. -/
  inScope : ∀ block ∈ blocks.head?, ∀ name declaration,
    (name, .source declaration) ∈ block → ¬ scopes.Fresh name

/-- A block in which the back end declares nothing but names of its own keeps what is in sight. -/
theorem Shows.inside (h : context.Shows scopes blocks)
    (hblock : ∀ entry ∈ block, entry.2.isNamed = false ∧ entry.2 ≠ .self) :
    context.Shows scopes (block :: blocks) := by
  intro name declaration hlookup
  obtain ⟨definition, hfind, hname, hhosts⟩ := h name declaration hlookup
  refine ⟨definition, hfind, hname, hhosts.inside fun other hmem => ?_⟩
  obtain ⟨hnamed, hself⟩ := hblock _ hmem
  rcases variableOf_cases context.strategy definition with hvariable | hvariable | hvariable <;>
    rw [hvariable] <;> cases other <;>
      simp_all [Declared.isNamed, Declared.isSource, Declared.Hides]

theorem Shows.enter (h : context.Shows scopes blocks) : context.Shows scopes.enter blocks := by
  intro name declaration hlookup
  rw [Scopes.lookup_enter] at hlookup
  exact h name declaration hlookup

/-- A new block. -/
theorem Fits.nest (h : context.Fits scopes blocks) : context.Fits scopes ([] :: blocks) where
  shows := h.shows.inside (List.forall_mem_nil _)
  relied := fun name declared hrelies =>
    (h.relied name declared hrelies).past (List.forall_mem_nil _)
  inScope := by
    intro block hblock name declaration hmem
    cases hblock
    cases hmem

/-- A new block for a new scope. -/
theorem Fits.enter (h : context.Fits scopes blocks) : context.Fits scopes.enter ([] :: blocks) where
  shows := h.nest.shows.enter
  relied := h.nest.relied
  inScope := by
    intro block hblock name declaration hmem
    cases hblock
    cases hmem

/-- A new declaration in scope and block. -/
theorem Fits.add (h : context.Fits scopes (inner :: blocks)) (definition : Definition)
    (hfind : context.definitions.find? definition.uid = some definition)
    (hfresh : scopes.Fresh definition.name)
    (hvariable : variableOf context.strategy definition = .source definition.uid) :
    context.Fits (scopes.add definition.name definition.uid)
      (((definition.name, .source definition.uid) :: inner) :: blocks) where
  shows := by
    intro name declaration hlookup
    by_cases hname : definition.name = name
    · subst hname
      rw [Scopes.lookup_add_self, Option.some.injEq] at hlookup
      subst hlookup
      refine ⟨definition, hfind, rfl, ?_⟩
      rw [hvariable]
      refine .here List.mem_cons_self ?_
      rw [Blocks.named_cons_self, List.erase_cons_head]
      -- The block cannot have the name for the algorithm yet, as the scope does not.
      intro other hother
      cases other with
      | source declaration =>
        exact (h.inScope inner rfl _ _ (Block.mem_named.1 hother) hfresh).elim
      | _ => exact ⟨rfl, by simp⟩
    · rw [Scopes.lookup_add_ne scopes hname] at hlookup
      obtain ⟨other, hother, hsame, hhosts⟩ := h.shows name declaration hlookup
      exact ⟨other, hother, hsame, hhosts.add fun hfirst => (hname hfirst).elim⟩
  relied := fun name declared hrelies =>
    (h.relied name declared hrelies).add fun _ => hrelies.rivals_source definition.uid
  inScope := by
    intro block hblock name declaration hmem
    cases hblock
    rcases List.mem_cons.1 hmem with hmem | hmem
    · cases hmem
      exact scopes.not_fresh_add _ _
    · exact fun hadd => h.inScope inner rfl name declaration hmem hadd.of_add

theorem Fits.perm (h : context.Fits scopes (inner :: blocks)) (hperm : inner.Perm block) :
    context.Fits scopes (block :: blocks) where
  shows := by
    intro name declaration hlookup
    obtain ⟨definition, hfind, hname, hhosts⟩ := h.shows name declaration hlookup
    exact ⟨definition, hfind, hname, hhosts.perm hperm⟩
  relied := fun name declared hrelies => (h.relied name declared hrelies).perm hperm
  inScope := by
    intro other hother name declaration hmem
    cases hother
    exact h.inScope inner rfl name declaration (hperm.mem_iff.2 hmem)

end FunctionContext

end Go

end PlusCalGo
