import Mathlib.Data.List.Forall2
import Mathlib.Data.List.Nodup
import PlusCalGo.Proofs.Locking.Recording

/-!
# Coverage of accesses

The accesses of a body tell every identifier in it once. Operand by operand, in the order of the
program, an expression that is read is one access as a whole, and a target is the reads of its
subscripts and then the write of the variable at its root.
-/

namespace PlusCalGo

/-! ## Operands -/

/-- An expression in a statement, with the innermost label around the statement. -/
structure Operand where
  label? : Option Label
  /-- It is assigned to. -/
  isTarget : Bool
  expression : Expression

namespace Statement

mutual

/-- The operands of a statement under a label, in source order. -/
def operands (label? : Option Label) : Statement → List Operand
  | labeled _ label body => listOperands (some label) body
  | whileDo _ condition body => ⟨label?, false, condition⟩ :: listOperands label? body
  | ifElse _ condition yes no =>
    ⟨label?, false, condition⟩ :: (listOperands label? yes ++ listOperands label? no)
  | either _ cases => casesOperands label? cases
  | assign _ pairs =>
    pairs.flatMap fun pair => [⟨label?, true, pair.lhs⟩, ⟨label?, false, pair.rhs⟩]
  | call _ _ arguments | macroCall _ _ arguments => arguments.map (⟨label?, false, ·⟩)
  | withDo _ bindings body =>
    (bindings.filterMap (·.value)).map (⟨label?, false, ·⟩) ++ listOperands label? body
  | print _ value | assert _ value | await _ value => [⟨label?, false, value⟩]
  | leave _ | skip _ | goto .. => []

def listOperands (label? : Option Label) : List Statement → List Operand
  | [] => []
  | statement :: rest => statement.operands label? ++ listOperands label? rest

def casesOperands (label? : Option Label) : List (List Statement) → List Operand
  | [] => []
  | body :: rest => listOperands label? body ++ casesOperands label? rest

end

end Statement

/-- The expression is a variable with subscripts, outer ones first. -/
inductive Expression.Subscripted : Expression → Expression → List Expression → Prop
  | root {uid : Uid} {name : String} : Subscripted (.identifier uid name) (.identifier uid name) []
  | index {uid : Uid} {function root : Expression} {params subscripts : List Expression} :
    Subscripted function root subscripts →
      Subscripted (.index uid function params) root (params ++ subscripts)

/-- The accesses an operand is told by. -/
inductive Operand.Logged : Operand → List Access → Prop
  | read {label : Label} {expression : Expression} :
    Logged ⟨some label, false, expression⟩ [⟨false, expression, label⟩]
  | target {label : Label} {expression root : Expression} {subscripts : List Expression} :
    expression.Subscripted root subscripts →
      Logged ⟨some label, true, expression⟩
        (subscripts.map (⟨false, ·, label⟩) ++ [⟨true, root, label⟩])

/-- A trace without problem tells the operands one after the other. -/
def AccessTrace.Logs (trace : AccessTrace) (operands : List Operand) : Prop :=
  trace.problem? = none → ∃ groups : List (List Access),
    trace.accesses = groups.flatten ∧ List.Forall₂ Operand.Logged operands groups

/-! ## Traces -/

namespace AccessTrace

variable {first second : AccessTrace} {operands others : List Operand}

theorem logs_nil : nil.Logs [] := fun _ => ⟨[], rfl, .nil⟩

theorem logs_halt (problem : Problem) : (halt problem).Logs operands := by
  intro h
  cases h

theorem Logs.append (hfirst : first.Logs operands) (hsecond : second.Logs others) :
    (first ++ second).Logs (operands ++ others) := by
  intro h
  obtain ⟨hnone, hother⟩ := append_problem.1 h
  obtain ⟨groups, hgroups, hlogged⟩ := hfirst hnone
  obtain ⟨more, hmore, hothers⟩ := hsecond hother
  refine ⟨groups ++ more, ?_, List.rel_append hlogged hothers⟩
  rw [append_accesses hnone, hgroups, hmore, List.flatten_append]

theorem logs_concat {α : Type} {trace : α → AccessTrace} {operands : α → List Operand}
    (h : ∀ a, (trace a).Logs (operands a)) (items : List α) :
    (concat (items.map trace)).Logs (items.flatMap operands) := by
  induction items with
  | nil => exact logs_nil
  | cons a rest ih => exact (h a).append ih

end AccessTrace

namespace Expression

variable {label : Label}

theorem logs_reading (label : Label) (expression : Expression) :
    (expression.reading label).Logs [⟨some label, false, expression⟩] :=
  fun _ => ⟨[_], rfl, .cons .read .nil⟩

theorem logs_readings (label : Label) (expressions : List Expression) :
    (AccessTrace.concat (expressions.map (reading label))).Logs
      (expressions.map (⟨some label, false, ·⟩)) := by
  have h := AccessTrace.logs_concat (logs_reading label) expressions
  rwa [← List.map_eq_flatMap] at h

/-- Reading expressions one after the other never fails. -/
theorem concat_reading (expressions : List Expression) :
    AccessTrace.concat (expressions.map (reading label)) =
      ⟨expressions.map (⟨false, ·, label⟩), none⟩ := by
  induction expressions with
  | nil => rfl
  | cons expression rest ih =>
    rw [List.map_cons, AccessTrace.concat_cons, ih]
    rfl

/-- A target is told by its subscripts and its root, if it is a variable at all. -/
theorem writing_ok {target : Expression} (h : (target.writing label).problem? = none) :
    ∃ root subscripts, target.Subscripted root subscripts ∧
      (target.writing label).accesses =
        subscripts.map (⟨false, ·, label⟩) ++ [⟨true, root, label⟩] := by
  induction target using writing.induct with
  | case1 uid name => exact ⟨_, _, .root, rfl⟩
  | case2 uid function params ih =>
    rw [writing, concat_reading] at h ⊢
    obtain ⟨hparams, hfunction⟩ := AccessTrace.append_problem.1 h
    obtain ⟨root, subscripts, hroot, haccesses⟩ := ih hfunction
    refine ⟨root, params ++ subscripts, .index hroot, ?_⟩
    rw [AccessTrace.append_accesses hparams, haccesses, List.map_append, List.append_assoc]
  | case3 expression hidentifier hindex =>
    rw [writing.eq_3 label expression hidentifier hindex] at h
    cases h

theorem logs_writing (target : Expression) :
    (target.writing label).Logs [⟨some label, true, target⟩] := by
  intro h
  obtain ⟨root, subscripts, hroot, haccesses⟩ := writing_ok h
  exact ⟨[_], by rw [haccesses]; simp, .cons (.target hroot) .nil⟩

end Expression

/-! ## Statements -/

namespace Statement

private theorem logs_under {statement : Statement} {label? : Option Label}
    {found : Label → AccessTrace} {operands : List Operand}
    (h : ∀ label, label? = some label → (found label).Logs operands) :
    (accesses.under statement label? found).Logs operands := by
  cases label? with
  | none => exact AccessTrace.logs_halt _
  | some label => exact h label rfl

mutual

/-- The accesses of a statement tell its operands. -/
theorem logs_accesses (label? : Option Label) (statement : Statement) :
    (statement.accesses label?).Logs (statement.operands label?) := by
  cases statement with
  | labeled mark label body => exact logs_listAccesses (some label) body
  | whileDo mark condition body =>
    apply logs_under
    rintro label rfl
    exact (Expression.logs_reading _ condition).append (logs_listAccesses _ body)
  | ifElse mark condition yes no =>
    apply logs_under
    rintro label rfl
    exact (Expression.logs_reading _ condition).append
      ((logs_listAccesses _ yes).append (logs_listAccesses _ no))
  | either mark cases =>
    apply logs_under
    rintro label rfl
    exact logs_casesAccesses _ cases
  | assign mark pairs =>
    apply logs_under
    rintro label rfl
    refine AccessTrace.logs_concat (fun pair => ?_) pairs
    exact (Expression.logs_writing pair.lhs).append (Expression.logs_reading _ pair.rhs)
  | leave mark => exact logs_under fun _ _ => AccessTrace.logs_nil
  | skip mark => exact logs_under fun _ _ => AccessTrace.logs_nil
  | call mark target arguments =>
    apply logs_under
    rintro label rfl
    exact Expression.logs_readings label arguments
  | macroCall mark target arguments => exact logs_under fun _ _ => AccessTrace.logs_halt _
  | withDo mark bindings body =>
    apply logs_under
    rintro label rfl
    refine AccessTrace.Logs.append ?_ (logs_listAccesses _ body)
    have hvalues := Expression.logs_readings label (bindings.filterMap (·.value))
    rwa [List.map_filterMap] at hvalues
  | print mark value =>
    apply logs_under
    rintro label rfl
    exact Expression.logs_reading label value
  | assert mark value =>
    apply logs_under
    rintro label rfl
    exact Expression.logs_reading label value
  | await mark value =>
    apply logs_under
    rintro label rfl
    exact Expression.logs_reading label value
  | goto mark target => exact logs_under fun _ _ => AccessTrace.logs_nil

theorem logs_listAccesses (label? : Option Label) (statements : List Statement) :
    (listAccesses label? statements).Logs (listOperands label? statements) := by
  cases statements with
  | nil => exact AccessTrace.logs_nil
  | cons statement rest =>
    exact (logs_accesses label? statement).append (logs_listAccesses label? rest)

theorem logs_casesAccesses (label? : Option Label) (cases : List (List Statement)) :
    (casesAccesses label? cases).Logs (casesOperands label? cases) := by
  cases cases with
  | nil => exact AccessTrace.logs_nil
  | cons body rest =>
    exact (logs_listAccesses label? body).append (logs_casesAccesses label? rest)

end

end Statement

/-! ## Mentions of identifiers -/

/-- An identifier under a label. -/
structure Mention where
  label? : Option Label
  /-- It is the variable at the root of a target. -/
  isRoot : Bool
  uid : Uid
  name : String
deriving DecidableEq

namespace Expression

/-- The identifiers of a target in source order, and whether each is the root. -/
def rooted : Expression → List (Bool × Uid × String)
  | identifier uid name => [(true, uid, name)]
  | index _ function params => function.rooted ++ (listNamed params).map (false, ·)
  | expression => expression.named.map (false, ·)

end Expression

/-- The identifiers in an operand, in source order. -/
def Operand.mentions (operand : Operand) : List Mention :=
  if operand.isTarget then
    operand.expression.rooted.map fun (isRoot, uid, name) => ⟨operand.label?, isRoot, uid, name⟩
  else operand.expression.named.map fun (uid, name) => ⟨operand.label?, false, uid, name⟩

/-- The identifiers in what is accessed. -/
def Access.mentions (access : Access) : List Mention :=
  access.expression.named.map fun (uid, name) => ⟨some access.label, access.isWrite, uid, name⟩

/-- The identifiers in the statements of a body, in source order. -/
def Statement.mentions (body : List Statement) : List Mention :=
  (listOperands none body).flatMap Operand.mentions

theorem Access.uid_mentions (access : Access) :
    access.mentions.map (·.uid) = access.expression.identifiers := by
  rw [mentions, Expression.identifiers_eq, List.map_map]
  rfl

private theorem mentions_reads (label : Label) (expressions : List Expression) :
    (expressions.map (⟨false, ·, label⟩)).flatMap Access.mentions =
      (Expression.listNamed expressions).map fun (uid, name) => ⟨some label, false, uid, name⟩ := by
  induction expressions with
  | nil => rfl
  | cons expression rest ih =>
    rw [List.map_cons, List.flatMap_cons, ih, Expression.listNamed, List.map_append]
    rfl

namespace Expression

theorem listNamed_append (first second : List Expression) :
    listNamed (first ++ second) = listNamed first ++ listNamed second := by
  induction first with
  | nil => rfl
  | cons expression rest ih => rw [List.cons_append, listNamed, ih, listNamed, List.append_assoc]

/-- The identifiers of a target are those of its subscripts and its root. -/
theorem Subscripted.rooted_perm {target root : Expression} {subscripts : List Expression}
    (h : target.Subscripted root subscripts) :
    ((listNamed subscripts).map (false, ·) ++ root.named.map (true, ·)).Perm target.rooted := by
  induction h with
  | root => exact .refl _
  | @index uid function root params subscripts _ ih =>
    rw [listNamed_append, List.map_append, List.append_assoc, rooted]
    exact List.perm_append_comm.trans (ih.append_right _)

end Expression

/-- The accesses of an operand mention what the operand mentions, each identifier as often. -/
theorem Operand.Logged.mentions_perm {operand : Operand} {accesses : List Access}
    (h : operand.Logged accesses) : (accesses.flatMap Access.mentions).Perm operand.mentions := by
  cases h with
  | read => exact .of_eq (List.flatMap_singleton _ _)
  | @target label expression root subscripts hroot =>
    have hrooted := hroot.rooted_perm.map fun mention : Bool × Uid × String =>
      (⟨some label, mention.1, mention.2.1, mention.2.2⟩ : Mention)
    rw [List.map_append, List.map_map, List.map_map] at hrooted
    rw [List.flatMap_append, mentions_reads, List.flatMap_singleton]
    exact hrooted

/-- Groups of accesses mention what their operands mention. -/
theorem Operand.mentions_perm {operands : List Operand} {groups : List (List Access)}
    (h : List.Forall₂ Operand.Logged operands groups) :
    (groups.flatten.flatMap Access.mentions).Perm (operands.flatMap Operand.mentions) := by
  induction h with
  | nil => exact .nil
  | cons hlogged _ ih =>
    rw [List.flatten_cons, List.flatMap_append, List.flatMap_cons]
    exact hlogged.mentions_perm.append ih

/-! ## Distinct identifiers -/

/-- An identifier that is mentioned once is mentioned by one of the items only. -/
theorem eq_of_nodup_flatMap {α β : Type} {items : List α} {parts : α → List β}
    (hnodup : (items.flatMap parts).Nodup) {i j : Nat} {first second : α} {part : β}
    (hi : items[i]? = some first) (hj : items[j]? = some second) (hfirst : part ∈ parts first)
    (hsecond : part ∈ parts second) : i = j := by
  have hpairs := List.pairwise_iff_getElem.1 (List.nodup_flatMap.1 hnodup).2
  obtain ⟨hilt, rfl⟩ := List.getElem?_eq_some_iff.1 hi
  obtain ⟨hjlt, rfl⟩ := List.getElem?_eq_some_iff.1 hj
  rcases Nat.lt_trichotomy i j with hlt | heq | hlt
  · exact (hpairs i j hilt hjlt hlt hfirst hsecond).elim
  · exact heq
  · exact (hpairs j i hjlt hilt hlt hsecond hfirst).elim

namespace Statement

/-- The accesses of a body whose labels are in place tell its operands one after the other, in the
order of the program: what is read as one access, and a target as the reads of its subscripts and
the write of its root. So every identifier is mentioned once, under the innermost label around it,
and written if and only if it is the root of a target. Identifiers with uids of their own stand in
one access each. -/
theorem bodyAccesses_cover {body : List Statement} (h : (bodyAccesses body).problem? = none) :
    (∃ groups : List (List Access), (bodyAccesses body).accesses = groups.flatten ∧
      List.Forall₂ Operand.Logged (listOperands none body) groups) ∧
    ((bodyAccesses body).accesses.flatMap Access.mentions).Perm (mentions body) ∧
    (((mentions body).map (·.uid)).Nodup → ∀ mention ∈ mentions body,
      ∃ (place : Nat) (access : Access), (bodyAccesses body).accesses[place]? = some access ∧
        mention ∈ access.mentions ∧ ∀ (other : Nat) (another : Access),
          (bodyAccesses body).accesses[other]? = some another →
            mention.uid ∈ another.expression.identifiers → other = place) := by
  obtain ⟨groups, hgroups, hlogged⟩ := logs_listAccesses none body h
  have hperm : ((bodyAccesses body).accesses.flatMap Access.mentions).Perm (mentions body) := by
    rw [bodyAccesses, hgroups]
    exact Operand.mentions_perm hlogged
  refine ⟨⟨groups, hgroups, hlogged⟩, hperm, ?_⟩
  intro hnodup mention hmention
  obtain ⟨access, haccess, hin⟩ := List.mem_flatMap.1 (hperm.mem_iff.2 hmention)
  obtain ⟨place, hplace⟩ := List.mem_iff_getElem?.1 haccess
  refine ⟨place, access, hplace, hin, ?_⟩
  intro other another hother hidentifier
  have hidentifiers : ((bodyAccesses body).accesses.flatMap (·.expression.identifiers)).Nodup := by
    have huids := (hperm.map (·.uid)).nodup_iff.2 hnodup
    simpa only [List.map_flatMap, Access.uid_mentions] using huids
  refine eq_of_nodup_flatMap hidentifiers hother hplace hidentifier ?_
  rw [← Access.uid_mentions]
  exact List.mem_map_of_mem hin

end Statement

/-! ## A target with two subscripts

Step `a` is a loop on `x`, and the nested step `b` assigns `y` to `x[i][j]`. -/

private def indexing : List Statement :=
  let mark (number : UInt32) : Mark := ⟨⟨number⟩, .unknown⟩
  let target : Expression := .index ⟨7⟩ (.index ⟨8⟩ (.identifier ⟨9⟩ "x") [.identifier ⟨10⟩ "i"])
    [.identifier ⟨11⟩ "j"]
  [.labeled (mark 1) ⟨⟨2⟩, "a"⟩
    [.whileDo (mark 3) (.identifier ⟨4⟩ "x")
      [.labeled (mark 5) ⟨⟨6⟩, "b"⟩ [.assign (mark 12) [⟨target, .identifier ⟨13⟩ "y"⟩]]]]]

theorem Statement.bodyAccesses_cover_indexing :
    (bodyAccesses indexing).problem? = none ∧
      (bodyAccesses indexing).accesses =
        [⟨false, .identifier ⟨4⟩ "x", ⟨⟨2⟩, "a"⟩⟩, ⟨false, .identifier ⟨11⟩ "j", ⟨⟨6⟩, "b"⟩⟩,
          ⟨false, .identifier ⟨10⟩ "i", ⟨⟨6⟩, "b"⟩⟩, ⟨true, .identifier ⟨9⟩ "x", ⟨⟨6⟩, "b"⟩⟩,
          ⟨false, .identifier ⟨13⟩ "y", ⟨⟨6⟩, "b"⟩⟩] ∧
      ∃ (place : Nat) (access : Access), (bodyAccesses indexing).accesses[place]? = some access ∧
        ⟨some ⟨⟨6⟩, "b"⟩, true, ⟨9⟩, "x"⟩ ∈ access.mentions := by
  have hproblem : (bodyAccesses indexing).problem? = none := rfl
  obtain ⟨_, _, hdistinct⟩ := bodyAccesses_cover hproblem
  have hmention : ⟨some ⟨⟨6⟩, "b"⟩, true, ⟨9⟩, "x"⟩ ∈ mentions indexing := by decide
  obtain ⟨place, access, haccess, hin, _⟩ := hdistinct (by decide) _ hmention
  exact ⟨hproblem, rfl, place, access, haccess, hin⟩

end PlusCalGo
