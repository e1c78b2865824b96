import PlusCalGo.Algorithm.Uids
import PlusCalGo.Locking.Access

/-!
# Complete traces

A trace without problem tells all accesses. What holds of the identifiers in it holds of all
identifiers in the statements it was taken from.
-/

namespace PlusCalGo

namespace AccessTrace

theorem append_eq (first second : AccessTrace) : first ++ second =
    match first.problem? with
    | some _ => first
    | none => ⟨first.accesses ++ second.accesses, second.problem?⟩ := rfl

theorem append_problem {first second : AccessTrace} :
    (first ++ second).problem? = none ↔ first.problem? = none ∧ second.problem? = none := by
  rw [append_eq]
  cases hfirst : first.problem? with
  | none => simp
  | some problem => simp [hfirst]

theorem append_accesses {first second : AccessTrace} (h : first.problem? = none) :
    (first ++ second).accesses = first.accesses ++ second.accesses := by
  rw [append_eq, h]

theorem concat_cons (trace : AccessTrace) (rest : List AccessTrace) :
    concat (trace :: rest) = trace ++ concat rest := rfl

/-- The trace is complete, and each access in it has a property. -/
def All (property : Access → Prop) (trace : AccessTrace) : Prop :=
  trace.problem? = none ∧ ∀ access ∈ trace.accesses, property access

section All

variable {property : Access → Prop}

@[simp] theorem all_append {first second : AccessTrace} :
    (first ++ second).All property ↔ first.All property ∧ second.All property := by
  constructor
  · intro h
    rcases h with ⟨hproblem, haccesses⟩
    obtain ⟨hfirst, hsecond⟩ := append_problem.1 hproblem
    rw [append_accesses hfirst] at haccesses
    exact ⟨⟨hfirst, fun access h => haccesses access (List.mem_append_left _ h)⟩,
      hsecond, fun access h => haccesses access (List.mem_append_right _ h)⟩
  · intro h
    rcases h with ⟨⟨hfirst, hfirstAll⟩, hsecond, hsecondAll⟩
    refine ⟨append_problem.2 ⟨hfirst, hsecond⟩, ?_⟩
    rw [append_accesses hfirst]
    intro access haccess
    rcases List.mem_append.1 haccess with haccess | haccess
    · exact hfirstAll access haccess
    · exact hsecondAll access haccess

@[simp] theorem all_concat {traces : List AccessTrace} :
    (concat traces).All property ↔ ∀ trace ∈ traces, trace.All property := by
  induction traces with
  | nil =>
    refine ⟨fun _ => by simp, fun _ => ⟨rfl, ?_⟩⟩
    simp [concat, nil]
  | cons trace rest ih => rw [concat_cons, all_append, ih, List.forall_mem_cons]

@[simp] theorem all_one {access : Access} : (one access).All property ↔ property access := by
  simp [All, one]

theorem not_all_halt {problem : Problem} : ¬ (halt problem).All property := by
  simp [All, halt]

end All

end AccessTrace

/-- Each identifier in what is accessed has a property, together with the label it is under. -/
def Access.Occurs (property : Label → Uid → Prop) (access : Access) : Prop :=
  ∀ identifier ∈ access.expression.identifiers, property access.label identifier

section Occurs

variable {property : Label → Uid → Prop} {label : Label}

theorem reading_occurs {expression : Expression} :
    (expression.reading label).All (Access.Occurs property) ↔
      ∀ identifier ∈ expression.identifiers, property label identifier :=
  AccessTrace.all_one

theorem mem_listIdentifiers {expressions : List Expression} {identifier : Uid} :
    identifier ∈ Expression.listIdentifiers expressions ↔
      ∃ expression ∈ expressions, identifier ∈ expression.identifiers := by
  induction expressions with
  | nil => simp [Expression.listIdentifiers]
  | cons expression rest ih => simp [Expression.listIdentifiers, ih]

/-- The identifiers of an assignment target are the variable and those in the subscripts. -/
theorem writing_occurs {target : Expression}
    (h : (target.writing label).All (Access.Occurs property)) :
    ∀ identifier ∈ target.identifiers, property label identifier := by
  induction target using Expression.writing.induct with
  | case1 uid name => exact AccessTrace.all_one.1 h
  | case2 uid function params ih =>
    obtain ⟨hparams, hfunction⟩ := AccessTrace.all_append.1 h
    intro identifier hidentifier
    rcases List.mem_append.1 hidentifier with hidentifier | hidentifier
    · exact ih hfunction identifier hidentifier
    · obtain ⟨param, hparam, hidentifier⟩ := mem_listIdentifiers.1 hidentifier
      have hread := AccessTrace.all_concat.1 hparams _ (List.mem_map_of_mem hparam)
      exact reading_occurs.1 hread identifier hidentifier
  | case3 expression hidentifier hindex =>
    rw [Expression.writing.eq_3 label expression hidentifier hindex] at h
    exact (AccessTrace.not_all_halt h).elim

end Occurs

namespace Statement

theorem under_all {property : Access → Prop} {statement : Statement} {label? : Option Label}
    {found : Label → AccessTrace} (h : (accesses.under statement label? found).All property) :
    ∃ label, label? = some label ∧ (found label).All property := by
  cases label? with
  | none => exact (AccessTrace.not_all_halt h).elim
  | some label => exact ⟨label, rfl, h⟩

end Statement

end PlusCalGo
