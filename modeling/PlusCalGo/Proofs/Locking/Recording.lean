import PlusCalGo.Locking.Atomicity
import PlusCalGo.Proofs.Locking.Numbering
import PlusCalGo.Proofs.Locking.Traces
import PlusCalGo.Proofs.Resolution.Linking

/-!
# What is recorded of labels

The accesses found in a body are the identifiers in it, each under the innermost label. Recording
them gives each label the global variables that the identifiers under it refer to.
-/

namespace PlusCalGo

/-! ## Uses of identifiers -/

/-- An identifier with the label it is under, and whether it is written. -/
abbrev Use := Option Uid × Bool × Uid

def Occurrence.use (occurrence : Occurrence) : Use :=
  (occurrence.label?, occurrence.isTarget, occurrence.uid)

def Access.uses (access : Access) : List Use :=
  access.expression.identifiers.map fun identifier =>
    (some access.label.uid, access.isWrite, identifier)

namespace AccessTrace

/-- A trace without problem tells the uses of the occurrences. -/
def Tells (trace : AccessTrace) (occurrences : List Occurrence) : Prop :=
  trace.problem? = none → trace.accesses.flatMap Access.uses = occurrences.map Occurrence.use

theorem tells_nil : nil.Tells [] := fun _ => rfl

theorem tells_halt (problem : Problem) (occurrences : List Occurrence) :
    (halt problem).Tells occurrences := by
  intro h
  simp [halt] at h

theorem Tells.append {first second : AccessTrace} {occurrences others : List Occurrence}
    (hfirst : first.Tells occurrences) (hsecond : second.Tells others) :
    (first ++ second).Tells (occurrences ++ others) := by
  intro h
  obtain ⟨hnone, hother⟩ := append_problem.1 h
  rw [append_accesses hnone, List.flatMap_append, List.map_append, hfirst hnone, hsecond hother]

theorem tells_concat {α : Type} {trace : α → AccessTrace} {occurrences : α → List Occurrence}
    (h : ∀ a, (trace a).Tells (occurrences a)) (items : List α) :
    (concat (items.map trace)).Tells (items.flatMap occurrences) := by
  induction items with
  | nil => exact tells_nil
  | cons a rest ih => exact (h a).append ih

end AccessTrace

namespace Expression

variable {label : Label} {naming : Naming}

theorem tells_reading (expression : Expression) :
    (expression.reading label).Tells (expression.reads (some label.uid) naming) := by
  intro _
  simp [reading, AccessTrace.one, Access.uses, identifiers_eq, reads, Occurrence.use]

theorem tells_writing (target : Expression) :
    (target.writing label).Tells (target.targets (some label.uid) naming) := by
  induction target using writing.induct with
  | case1 uid name => exact fun _ => rfl
  | case2 uid function params ih =>
    exact (AccessTrace.tells_concat tells_reading params).append ih
  | case3 expression hidentifier hindex =>
    rw [writing.eq_3 label expression hidentifier hindex]
    exact AccessTrace.tells_halt _ _

theorem tells_bindings (bindings : List VariableDecl) {naming : Naming} :
    (AccessTrace.concat (bindings.filterMap fun decl => decl.value.map (reading label))).Tells
      (VariableDecl.listReads (some label.uid) naming bindings) := by
  induction bindings generalizing naming with
  | nil => exact AccessTrace.tells_nil
  | cons decl rest ih =>
    cases hdecl : decl.value with
    | none =>
      simp only [List.filterMap_cons, hdecl, Option.map_none, VariableDecl.listReads,
        Option.getD_none, List.nil_append]
      exact ih
    | some value =>
      simp only [List.filterMap_cons, hdecl, Option.map_some, VariableDecl.listReads,
        Option.getD_some]
      exact (tells_reading value).append ih

end Expression

namespace Statement

private theorem tells_under {statement : Statement} {label? : Option Label}
    {found : Label → AccessTrace} {occurrences : List Occurrence}
    (h : ∀ label, label? = some label → (found label).Tells occurrences) :
    (accesses.under statement label? found).Tells occurrences := by
  cases label? with
  | none => exact AccessTrace.tells_halt _ _
  | some label => exact h label rfl

mutual

/-- The accesses of a statement are the occurrences in it. -/
theorem tells_accesses (label? : Option Label) (naming : Naming) (statement : Statement) :
    (statement.accesses label?).Tells (statement.occurrences (label?.map (·.uid)) naming) := by
  cases statement with
  | labeled mark label body => exact tells_listAccesses (some label) naming body
  | whileDo mark condition body =>
    apply tells_under
    intro label hlabel
    subst hlabel
    exact (Expression.tells_reading condition).append (tells_listAccesses _ naming body)
  | ifElse mark condition yes no =>
    apply tells_under
    intro label hlabel
    subst hlabel
    exact (Expression.tells_reading condition).append
      ((tells_listAccesses _ naming yes).append (tells_listAccesses _ naming no))
  | either mark cases =>
    apply tells_under
    intro label hlabel
    subst hlabel
    exact tells_casesAccesses _ naming cases
  | assign mark pairs =>
    apply tells_under
    intro label hlabel
    subst hlabel
    refine AccessTrace.tells_concat (fun pair => ?_) pairs
    exact (Expression.tells_writing pair.lhs).append (Expression.tells_reading pair.rhs)
  | leave mark =>
    apply tells_under
    exact fun _ _ => AccessTrace.tells_nil
  | skip mark =>
    apply tells_under
    exact fun _ _ => AccessTrace.tells_nil
  | call mark target arguments =>
    apply tells_under
    intro label hlabel
    subst hlabel
    exact AccessTrace.tells_concat Expression.tells_reading arguments
  | macroCall mark target arguments =>
    apply tells_under
    exact fun _ _ => AccessTrace.tells_halt _ _
  | withDo mark bindings body =>
    apply tells_under
    intro label hlabel
    subst hlabel
    exact (Expression.tells_bindings bindings).append (tells_listAccesses _ _ body)
  | print mark value =>
    apply tells_under
    intro label hlabel
    subst hlabel
    exact Expression.tells_reading value
  | assert mark value =>
    apply tells_under
    intro label hlabel
    subst hlabel
    exact Expression.tells_reading value
  | await mark value =>
    apply tells_under
    intro label hlabel
    subst hlabel
    exact Expression.tells_reading value
  | goto mark target =>
    apply tells_under
    exact fun _ _ => AccessTrace.tells_nil

theorem tells_listAccesses (label? : Option Label) (naming : Naming)
    (statements : List Statement) :
    (listAccesses label? statements).Tells
      (listOccurrences (label?.map (·.uid)) naming statements) := by
  cases statements with
  | nil => exact AccessTrace.tells_nil
  | cons statement rest =>
    exact (tells_accesses label? naming statement).append (tells_listAccesses label? naming rest)

theorem tells_casesAccesses (label? : Option Label) (naming : Naming)
    (cases : List (List Statement)) :
    (casesAccesses label? cases).Tells
      (casesOccurrences (label?.map (·.uid)) naming cases) := by
  cases cases with
  | nil => exact AccessTrace.tells_nil
  | cons body rest =>
    exact (tells_listAccesses label? naming body).append (tells_casesAccesses label? naming rest)

end

end Statement

/-! ## Recording -/

namespace Definitions

theorem globalsIn_ok {definitions : Definitions} {identifiers globals : List Uid}
    (h : definitions.globalsIn identifiers = .ok globals) :
    globals = identifiers.filterMap definitions.globalOf? := by
  induction identifiers generalizing globals with
  | nil =>
    cases h
    rfl
  | cons identifier rest ih =>
    obtain ⟨declaration, hfollow, h⟩ := ok_of_bind h
    obtain ⟨others, hrest, h⟩ := ok_of_bind h
    have hdeclaration : definitions.declarationOf? identifier = some declaration := by
      unfold followReference at hfollow
      split at hfollow
      · rename_i found hfound
        cases hfollow
        exact hfound
      · simp at hfollow
    have hothers := ih hrest
    cases h
    by_cases hglobal : definitions.isGlobal declaration = true
    · simp [globalOf?, hdeclaration, hglobal, Option.filter, hothers]
    · simp [globalOf?, hdeclaration, hglobal, Option.filter, hothers]

end Definitions

namespace LabelAccesses

@[simp] theorem add_label (accesses : LabelAccesses) (isWrite : Bool) (globals : List Uid) :
    (accesses.add isWrite globals).label = accesses.label := by
  cases isWrite <;> rfl

theorem mem_touched_add {accesses : LabelAccesses} {isWrite other : Bool} {globals : List Uid}
    {global : Uid} : global ∈ (accesses.add isWrite globals).touched other ↔
      global ∈ accesses.touched other ∨ (isWrite = other ∧ global ∈ globals) := by
  cases isWrite <;> cases other <;> simp [add, touched]

theorem addFirst?_eq_some {label : Uid} {isWrite : Bool} {globals : List Uid}
    {labels after : List LabelAccesses} (h : addFirst? label isWrite globals labels = some after) :
    ∃ front old back, labels = front ++ old :: back ∧ old.label = label ∧
      after = front ++ old.add isWrite globals :: back := by
  induction labels generalizing after with
  | nil => simp [addFirst?] at h
  | cons accesses rest ih =>
    simp only [addFirst?] at h
    split at h
    · rename_i hlabel
      cases h
      exact ⟨[], accesses, rest, rfl, hlabel, rfl⟩
    · obtain ⟨others, hothers, rfl⟩ := Option.map_eq_some_iff.1 h
      obtain ⟨front, old, back, rfl, hlabel, rfl⟩ := ih hothers
      exact ⟨accesses :: front, old, back, rfl, hlabel, rfl⟩

/-- One access is added to one label with its uid. -/
theorem record_ok {definitions : Definitions} {labels after : List LabelAccesses} {access : Access}
    (h : record definitions labels access = .ok after) :
    ∃ front old back, labels = front ++ old :: back ∧ old.label = access.label.uid ∧
      after = front ++ old.add access.isWrite
        (access.expression.identifiers.filterMap definitions.globalOf?) :: back := by
  obtain ⟨globals, hglobals, h⟩ := ok_of_bind h
  rw [Definitions.globalsIn_ok hglobals] at h
  split at h
  · rename_i found hadd
    cases h
    obtain ⟨front, old, back, hlabels, hlabel, rfl⟩ := addFirst?_eq_some hadd
    refine ⟨back.reverse, old, front.reverse, ?_, hlabel, by simp⟩
    rw [← List.reverse_reverse labels, hlabels]
    simp
  · simp [throw, throwThe, MonadExceptOf.throw] at h

end LabelAccesses

/-- The labels have what the uses refer to, and all uses are under one of them. -/
structure Recorded (definitions : Definitions) (labels : List LabelAccesses) (uses : List Use) :
    Prop where
  touched : ∀ accesses ∈ labels, ∀ isWrite global, global ∈ accesses.touched isWrite ↔
    ∃ identifier, (some accesses.label, isWrite, identifier) ∈ uses ∧
      definitions.globalOf? identifier = some global
  declared : ∀ use ∈ uses, ∃ accesses ∈ labels, use.1 = some accesses.label

section Recording

variable {definitions : Definitions} {labels after : List LabelAccesses} {uses : List Use}

theorem Access.mem_uses {access : Access} {label : Uid} {isWrite : Bool} {identifier : Uid} :
    (some label, isWrite, identifier) ∈ access.uses ↔ label = access.label.uid ∧
      isWrite = access.isWrite ∧ identifier ∈ access.expression.identifiers := by
  simp only [Access.uses, List.mem_map, Prod.mk.injEq, Option.some.injEq]
  constructor
  · intro h
    rcases h with ⟨other, hmem, rfl, rfl, rfl⟩
    exact ⟨rfl, rfl, hmem⟩
  · intro h
    rcases h with ⟨rfl, rfl, hmem⟩
    exact ⟨identifier, hmem, rfl, rfl, rfl⟩

theorem Recorded.record {access : Access} (hrecorded : Recorded definitions labels uses)
    (hnodup : (labels.map (·.label)).Nodup)
    (h : LabelAccesses.record definitions labels access = .ok after) :
    after.map (·.label) = labels.map (·.label) ∧
      Recorded definitions after (uses ++ access.uses) := by
  obtain ⟨front, old, back, rfl, hold, rfl⟩ := LabelAccesses.record_ok h
  have hlabels : (front ++ old.add access.isWrite
      (access.expression.identifiers.filterMap definitions.globalOf?) :: back).map (·.label) =
      (front ++ old :: back).map (·.label) := by
    simp
  refine ⟨hlabels, ?_, ?_⟩
  · intro accesses hmem isWrite global
    have hother : accesses ∈ front ∨ accesses ∈ back → (global ∈ accesses.touched isWrite ↔
        ∃ identifier, (some accesses.label, isWrite, identifier) ∈ uses ++ access.uses ∧
          definitions.globalOf? identifier = some global) := by
      intro hside
      have hne : accesses.label ≠ access.label.uid := by
        intro hsame
        rw [← hold] at hsame
        rw [List.map_append, List.map_cons, List.nodup_append] at hnodup
        obtain ⟨_, hback, hfront⟩ := hnodup
        rcases hside with hside | hside
        · exact hfront _ (List.mem_map_of_mem hside) _ List.mem_cons_self hsame
        · refine (List.nodup_cons.1 hback).1 ?_
          rw [← hsame]
          exact List.mem_map_of_mem hside
      have hlabel : accesses ∈ front ++ old :: back := by
        rcases hside with hside | hside
        · exact List.mem_append_left _ hside
        · exact List.mem_append_right _ (List.mem_cons_of_mem _ hside)
      rw [hrecorded.touched accesses hlabel]
      simp only [List.mem_append, Access.mem_uses, hne, false_and, or_false]
    rcases List.mem_append.1 hmem with hmem | hmem
    · exact hother (.inl hmem)
    rcases List.mem_cons.1 hmem with rfl | hmem
    · have hlabel : old ∈ front ++ old :: back := List.mem_append_right _ List.mem_cons_self
      rw [LabelAccesses.mem_touched_add, hrecorded.touched old hlabel, LabelAccesses.add_label]
      simp only [List.mem_append, Access.mem_uses, hold, List.mem_filterMap, true_and, or_and_right,
        exists_or, exists_and_left, and_assoc, eq_comm]
    · exact hother (.inr hmem)
  · have hdeclared : ∀ use ∈ uses ++ access.uses, ∃ accesses ∈ front ++ old :: back,
        use.1 = some accesses.label := by
      intro use hmem
      rcases List.mem_append.1 hmem with hmem | hmem
      · exact hrecorded.declared use hmem
      · obtain ⟨identifier, _, rfl⟩ := List.mem_map.1 hmem
        exact ⟨old, List.mem_append_right _ List.mem_cons_self, congrArg some hold.symm⟩
    intro use hmem
    obtain ⟨accesses, haccesses, huse⟩ := hdeclared use hmem
    have hfound : accesses.label ∈ (front ++ old :: back).map (·.label) :=
      List.mem_map_of_mem haccesses
    rw [← hlabels] at hfound
    obtain ⟨other, hother, hsame⟩ := List.mem_map.1 hfound
    exact ⟨other, hother, by rw [huse, hsame]⟩

theorem Recorded.recordAll (accesses : List Access) (hrecorded : Recorded definitions labels uses)
    (hnodup : (labels.map (·.label)).Nodup)
    (h : LabelAccesses.recordAll definitions labels accesses = .ok after) :
    after.map (·.label) = labels.map (·.label) ∧
      Recorded definitions after (uses ++ accesses.flatMap Access.uses) := by
  induction accesses generalizing labels uses with
  | nil =>
    cases h
    rw [List.flatMap_nil, List.append_nil]
    exact ⟨rfl, hrecorded⟩
  | cons access rest ih =>
    obtain ⟨between, hrecord, hrest⟩ := ok_of_bind h
    obtain ⟨hsame, hbetween⟩ := hrecorded.record hnodup hrecord
    have hnodup : (between.map (·.label)).Nodup := by
      rw [hsame]
      exact hnodup
    obtain ⟨hlabels, hafter⟩ := ih hbetween hnodup hrest
    rw [List.flatMap_cons, ← List.append_assoc]
    exact ⟨hlabels.trans hsame, hafter⟩

end Recording

end PlusCalGo
