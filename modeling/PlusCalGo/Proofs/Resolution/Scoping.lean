import Mathlib.Data.List.Forall2
import PlusCalGo.Proofs.Resolution.Occurrences
import PlusCalGo.Proofs.Resolution.Placement
import PlusCalGo.Resolution.Basic

/-!
# Resolution follows the scopes

Resolution makes an identifier refer to a global variable exactly where its name stands for this
variable. References are only added, once for each identifier, so what is known of them after a part
of an algorithm stays true.
-/

namespace PlusCalGo

/-! ## Definitions that grow -/

namespace Definitions

/-- What a declaration means for the names: itself, if it is of a global variable. -/
def Means (definitions : Definitions) (declaration : Uid) (meaning : Option Uid) : Prop :=
  ∃ definition, definitions.find? declaration = some definition ∧
    meaning = if definition.kind.isGlobal then some declaration else none

/-- The identifier refers to a declaration of what its name stands for. -/
def Links (definitions : Definitions) (occurrence : Occurrence) : Prop :=
  ∃ declaration, (occurrence.uid, declaration) ∈ definitions.references ∧
    definitions.Means declaration occurrence.global?

/-- References are added for some of the uids, in their order, and link the occurrences. -/
structure Grows (before after : Definitions) (uids : List Uid) (occurrences : List Occurrence) :
    Prop where
  references : ∃ added, after.references = added ++ before.references ∧
    (added.map (·.1)).reverse.Sublist uids
  keeps : ∀ declaration definition, before.find? declaration = some definition →
    after.find? declaration = some definition
  links : ∀ occurrence ∈ occurrences, after.Links occurrence

section Grows

variable {before between after : Definitions} {uids more : List Uid}
  {occurrences others : List Occurrence}

theorem Grows.means (h : before.Grows after uids occurrences) {declaration : Uid}
    {meaning : Option Uid} (hmeans : before.Means declaration meaning) :
    after.Means declaration meaning := by
  obtain ⟨definition, hfind, hmeaning⟩ := hmeans
  exact ⟨definition, h.keeps declaration definition hfind, hmeaning⟩

theorem Grows.keepsLink (h : before.Grows after uids occurrences) {occurrence : Occurrence}
    (hlink : before.Links occurrence) : after.Links occurrence := by
  obtain ⟨declaration, hmem, hmeans⟩ := hlink
  obtain ⟨added, hadded, _⟩ := h.references
  refine ⟨declaration, ?_, h.means hmeans⟩
  rw [hadded]
  exact List.mem_append_right added hmem

theorem Grows.refl (definitions : Definitions) : definitions.Grows definitions [] [] where
  references := ⟨[], rfl, List.Sublist.slnil⟩
  keeps := fun _ _ h => h
  links := by simp

theorem Grows.append (hfirst : before.Grows between uids occurrences)
    (hsecond : between.Grows after more others) :
    before.Grows after (uids ++ more) (occurrences ++ others) where
  references := by
    obtain ⟨added, hadded, hsublist⟩ := hfirst.references
    obtain ⟨later, hlater, hmore⟩ := hsecond.references
    refine ⟨later ++ added, by rw [hlater, hadded, List.append_assoc], ?_⟩
    rw [List.map_append, List.reverse_append]
    exact hsublist.append hmore
  keeps := fun declaration definition h =>
    hsecond.keeps declaration definition (hfirst.keeps declaration definition h)
  links := by
    intro occurrence hmem
    rcases List.mem_append.1 hmem with hmem | hmem
    · exact hsecond.keepsLink (hfirst.links occurrence hmem)
    · exact hsecond.links occurrence hmem

/-- There may be more uids, and fewer occurrences. -/
theorem Grows.weaken (h : before.Grows after uids occurrences) (huids : uids.Sublist more)
    (hothers : ∀ occurrence ∈ others, occurrence ∈ occurrences) :
    before.Grows after more others where
  references := by
    obtain ⟨added, hadded, hsublist⟩ := h.references
    exact ⟨added, hadded, hsublist.trans huids⟩
  keeps := h.keeps
  links := fun occurrence hmem => h.links occurrence (hothers occurrence hmem)

theorem Grows.cons (h : before.Grows after uids occurrences) (uid : Uid) :
    before.Grows after (uid :: uids) occurrences :=
  h.weaken (List.sublist_cons_self uid uids) fun _ hmem => hmem

theorem find?_append (definitions : Definitions) (definition : Definition) (declaration : Uid) :
    find? { definitions with toList := definitions.toList ++ [definition] } declaration =
      (definitions.find? declaration).or
        (if definition.uid = declaration then some definition else none) := by
  simp only [find?, List.find?_append]
  by_cases h : definition.uid = declaration <;> simp [h]

end Grows

end Definitions

/-! ## Scopes and names -/

namespace Scopes

/-- All declarations in sight, inner ones first. -/
def entries (scopes : Scopes) : List (String × Uid) := scopes.inner ++ scopes.outer.flatten

/-- The scopes give the names their meaning. -/
def Gives (scopes : Scopes) (definitions : Definitions) (naming : Naming) : Prop :=
  List.Forall₂ (fun entry named => entry.1 = named.1 ∧ definitions.Means entry.2 named.2)
    scopes.entries naming

section Gives

variable {scopes : Scopes} {before after : Definitions} {naming : Naming} {uids : List Uid}
  {occurrences : List Occurrence}

private theorem forall₂_mono {entries : List (String × Uid)}
    (h : before.Grows after uids occurrences)
    (hgives : List.Forall₂ (fun entry named => entry.1 = named.1 ∧ before.Means entry.2 named.2)
      entries naming) :
    List.Forall₂ (fun entry named => entry.1 = named.1 ∧ after.Means entry.2 named.2)
      entries naming := by
  induction hgives with
  | nil => exact .nil
  | cons hentry _ ih => exact .cons ⟨hentry.1, h.means hentry.2⟩ ih

theorem Gives.mono (hgives : scopes.Gives before naming) (h : before.Grows after uids occurrences) :
    scopes.Gives after naming :=
  forall₂_mono h hgives

theorem Gives.enter (hgives : scopes.Gives before naming) : scopes.enter.Gives before naming :=
  hgives

private theorem forall₂_find {entries : List (String × Uid)} {name : String} {entry : String × Uid}
    (hgives : List.Forall₂ (fun entry named => entry.1 = named.1 ∧ before.Means entry.2 named.2)
      entries naming) (hfind : entries.find? (·.1 = name) = some entry) :
    before.Means entry.2 (naming.global? name) := by
  induction hgives with
  | nil => simp at hfind
  | @cons first named rest others hfirst _ ih =>
    -- Both lookups stop at the same entry, as the names agree one by one.
    by_cases hname : first.1 = name
    · have hentry : first = entry := by simpa [hname] using hfind
      have hglobal : Naming.global? (named :: others) name = named.2 := by
        simp [Naming.global?, ← hfirst.1, hname]
      rw [hglobal, ← hentry]
      exact hfirst.2
    · have hrest : rest.find? (·.1 = name) = some entry := by simpa [hname] using hfind
      have hglobal : Naming.global? (named :: others) name = Naming.global? others name := by
        simp [Naming.global?, ← hfirst.1, hname]
      rw [hglobal]
      exact ih hrest

/-- A name that is found is declared as what it stands for. -/
theorem Gives.lookup (hgives : scopes.Gives before naming) {name : String} {declaration : Uid}
    (h : scopes.lookup name = some declaration) :
    before.Means declaration (naming.global? name) := by
  obtain ⟨entry, hfind, rfl⟩ := Option.map_eq_some_iff.1 h
  rw [← List.find?_flatten] at hfind
  exact forall₂_find hgives hfind

/-- A declaration gives its name a meaning. -/
theorem Gives.declare (hgives : scopes.Gives before naming) {definition : Definition}
    {inside : Scopes} (h : scopes.declare before definition = .ok (inside, after)) :
    before.Grows after [] [] ∧ inside.Gives after
      ((definition.name, if definition.kind.isGlobal then some definition.uid else none) ::
        naming) := by
  unfold Scopes.declare Definitions.add at h
  split at h
  · simp at h
  cases hold : before.find? definition.uid with
  | some old => simp [hold, bind, Except.bind] at h
  | none =>
    simp only [hold, bind, Except.bind] at h
    injection h with h
    injection h with hinside hafter
    subst hinside hafter
    have hgrows : before.Grows { before with toList := before.toList ++ [definition] } [] [] := by
      refine ⟨⟨[], rfl, List.Sublist.slnil⟩, ?_, by simp⟩
      intro declaration other hother
      rw [Definitions.find?_append, hother]
      rfl
    refine ⟨hgrows, .cons ⟨rfl, definition, ?_, rfl⟩ (hgives.mono hgrows)⟩
    rw [Definitions.find?_append, hold, if_pos rfl]
    rfl

end Gives

end Scopes

/-! ## Expressions -/

section Expressions

variable {scopes : Scopes} {location : TextLocation} {naming : Naming}

namespace Expression

/-- All identifiers of an expression are linked. -/
def Linked (naming : Naming) (named : List (Uid × String)) (before after : Definitions)
    (uids : List Uid) : Prop :=
  ∀ label? isTarget, before.Grows after uids
    (named.map fun (uid, name) => ⟨label?, naming, isTarget, uid, name⟩)

theorem Linked.append {first second : List (Uid × String)} {before between after : Definitions}
    {uids more : List Uid} (hfirst : Linked naming first before between uids)
    (hsecond : Linked naming second between after more) :
    Linked naming (first ++ second) before after (uids ++ more) := by
  intro label? isTarget
  rw [List.map_append]
  exact (hfirst label? isTarget).append (hsecond label? isTarget)

theorem Linked.cons {named : List (Uid × String)} {before after : Definitions} {uids : List Uid}
    (h : Linked naming named before after uids) (uid : Uid) :
    Linked naming named before after (uid :: uids) :=
  fun label? isTarget => (h label? isTarget).cons uid

theorem Linked.leaf (definitions : Definitions) (uid : Uid) :
    Linked naming [] definitions definitions [uid] :=
  fun _ _ => (Definitions.Grows.refl definitions).cons uid

mutual

theorem linked_of_resolve (expression : Expression) {before after : Definitions}
    (hgives : scopes.Gives before naming)
    (h : expression.resolve scopes location before = .ok after) :
    Linked naming expression.named before after expression.uids := by
  cases expression with
  | number uid value =>
    cases h
    exact .leaf _ uid
  | bool uid value =>
    cases h
    exact .leaf _ uid
  | string uid value =>
    cases h
    exact .leaf _ uid
  | identifier uid name =>
    simp only [resolve] at h
    split at h
    · rename_i declaration hlookup
      cases h
      intro label? isTarget
      refine ⟨⟨[(uid, declaration)], rfl, by simp [uids]⟩, fun _ _ hfind => hfind, ?_⟩
      intro occurrence hmem
      rw [named, List.map_singleton, List.mem_singleton] at hmem
      rw [hmem]
      exact ⟨declaration, List.mem_cons_self, hgives.lookup hlookup⟩
    · simp at h
  | index uid function params =>
    obtain ⟨between, hfunction, hparams⟩ := ok_of_bind h
    have hfunction := linked_of_resolve function hgives hfunction
    have hparams := linked_of_listResolve params (hgives.mono (hfunction none false)) hparams
    exact (hfunction.append hparams).cons uid
  | binary uid op lhs rhs =>
    obtain ⟨between, hlhs, hrhs⟩ := ok_of_bind h
    have hlhs := linked_of_resolve lhs hgives hlhs
    have hrhs := linked_of_resolve rhs (hgives.mono (hlhs none false)) hrhs
    exact (hlhs.append hrhs).cons uid
  | unary uid op operand => exact (linked_of_resolve operand hgives h).cons uid
  | tuple uid elements => exact (linked_of_listResolve elements hgives h).cons uid
  | ifElse uid condition yes no =>
    obtain ⟨first, hcondition, h⟩ := ok_of_bind h
    obtain ⟨second, hyes, hno⟩ := ok_of_bind h
    have hcondition := linked_of_resolve condition hgives hcondition
    have hafter := hgives.mono (hcondition none false)
    have hyes := linked_of_resolve yes hafter hyes
    have hno := linked_of_resolve no (hafter.mono (hyes none false)) hno
    exact ((hcondition.append hyes).append hno).cons uid
  | apply uid name args => exact (linked_of_listResolve args hgives h).cons uid

theorem linked_of_listResolve (expressions : List Expression) {before after : Definitions}
    (hgives : scopes.Gives before naming)
    (h : listResolve scopes location expressions before = .ok after) :
    Linked naming (listNamed expressions) before after (listUids expressions) := by
  cases expressions with
  | nil =>
    cases h
    exact fun _ _ => .refl _
  | cons expression rest =>
    obtain ⟨between, hexpression, hrest⟩ := ok_of_bind h
    have hexpression := linked_of_resolve expression hgives hexpression
    have hrest := linked_of_listResolve rest (hgives.mono (hexpression none false)) hrest
    exact hexpression.append hrest

end

theorem listUids_eq (expressions : List Expression) :
    listUids expressions = expressions.flatMap Expression.uids := by
  induction expressions with
  | nil => rfl
  | cons expression rest ih => rw [listUids, ih, List.flatMap_cons]

theorem listReads_eq (label? : Option Uid) (naming : Naming) (expressions : List Expression) :
    (listNamed expressions).map
        (fun (uid, name) => (⟨label?, naming, false, uid, name⟩ : Occurrence)) =
      expressions.flatMap (reads label? naming) := by
  induction expressions with
  | nil => rfl
  | cons expression rest ih =>
    rw [listNamed, List.map_append, ih, List.flatMap_cons]
    rfl

/-- The identifiers of a target are those of the expression. -/
theorem mem_targets {label? : Option Uid} (target : Expression) {occurrence : Occurrence}
    (h : occurrence ∈ target.targets label? naming) :
    ∃ isTarget, occurrence ∈ target.named.map
      fun (uid, name) => (⟨label?, naming, isTarget, uid, name⟩ : Occurrence) := by
  induction target using targets.induct with
  | case1 uid name => exact ⟨true, h⟩
  | case2 uid function params ih =>
    simp only [named, List.map_append, List.mem_append]
    rcases List.mem_append.1 h with h | h
    · refine ⟨false, .inr ?_⟩
      rw [listReads_eq]
      exact h
    · obtain ⟨isTarget, h⟩ := ih h
      exact ⟨isTarget, .inl h⟩
  | case3 expression hidentifier hindex =>
    rw [targets.eq_3 label? naming expression hidentifier hindex] at h
    exact ⟨false, h⟩

/-- The identifiers of a target are linked as those of any expression. -/
theorem Linked.targets {target : Expression} {before after : Definitions} {uids : List Uid}
    (h : Linked naming target.named before after uids) (label? : Option Uid) :
    before.Grows after uids (target.targets label? naming) where
  references := (h label? false).references
  keeps := (h label? false).keeps
  links := by
    intro occurrence hmem
    obtain ⟨isTarget, hmem⟩ := mem_targets target hmem
    exact (h label? isTarget).links occurrence hmem

end Expression

end Expressions

end PlusCalGo
