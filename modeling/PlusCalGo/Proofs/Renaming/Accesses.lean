import Mathlib.Data.List.Sort
import PlusCalGo.Proofs.Locking.Traces
import PlusCalGo.Proofs.Renaming.Resolution
import PlusCalGo.Locking.Atomicity

/-!
# Accesses of renamed algorithms

The same accesses are found in the same order, and recorded at the same labels. Sets of uids are
kept in the order of the uids, which a renaming need not keep: only their members are renamed.
-/

namespace PlusCalGo

/-! ## Sets -/

namespace UidSet

/-- Sets with the same members are equal, since each is listed in one order. -/
theorem ext {a b : UidSet} (h : ∀ uid, uid ∈ a ↔ uid ∈ b) : a = b := by
  have hperm : a.toList.Perm b.toList :=
    (List.perm_ext_iff_of_nodup a.nodup_toList b.nodup_toList).2 h
  have hsame : a.toList = b.toList := by
    refine hperm.eq_of_pairwise ?_ a.ascending b.ascending
    intro x y _ _ hxy hyx
    exact absurd (Uid.lt_trans hxy hyx) (Uid.lt_irrefl x)
  cases a
  cases b
  simp only at hsame
  simp only [hsame]

def rename (r : Renaming) (set : UidSet) : UidSet := .ofList (set.toList.map r)

variable {r : Renaming}

theorem mem_rename {uid : Uid} {set : UidSet} :
    uid ∈ set.rename r ↔ ∃ old ∈ set, r old = uid := by
  rw [rename, mem_ofList, List.mem_map]
  rfl

theorem union_rename (set : UidSet) (uids : List Uid) :
    (set.rename r).union (.ofList (uids.map r)) = (set.union (.ofList uids)).rename r := by
  apply ext
  intro uid
  simp only [mem_union, mem_rename, mem_ofList, List.mem_map, or_and_right, exists_or]

theorem isEmpty_rename (set : UidSet) : (set.rename r).isEmpty = set.isEmpty := by
  have hempty (set : UidSet) : set.isEmpty = true ↔ ∀ uid, uid ∉ set := by
    rw [isEmpty, List.isEmpty_iff, List.eq_nil_iff_forall_not_mem]
    rfl
  rw [Bool.eq_iff_iff, hempty, hempty]
  constructor
  · intro h uid hmem
    exact h (r uid) (mem_rename.2 ⟨uid, hmem, rfl⟩)
  · intro h uid hmem
    obtain ⟨old, hold, _⟩ := mem_rename.1 hmem
    exact h old hold

/-- The members are those of the renamed list, in their own order. -/
theorem toList_rename_perm (hr : Function.Injective r) (set : UidSet) :
    (set.rename r).toList.Perm (set.toList.map r) := by
  have hnodup := set.nodup_toList.map hr
  refine (List.perm_ext_iff_of_nodup (nodup_toList _) hnodup).2 fun uid => ?_
  rw [List.mem_map]
  exact mem_rename

end UidSet

/-! ## Traces -/

def Access.rename (r : Renaming) (access : Access) : Access :=
  ⟨access.isWrite, access.expression.rename r, access.label.rename r⟩

namespace AccessTrace

def rename (r : Renaming) (trace : AccessTrace) : AccessTrace :=
  ⟨trace.accesses.map (Access.rename r), trace.problem?.map (Diagnostic.rename r)⟩

variable {r : Renaming}

theorem append_rename (first second : AccessTrace) :
    (first ++ second).rename r = first.rename r ++ second.rename r := by
  rw [append_eq, append_eq]
  cases hfirst : first.problem? <;> simp [rename, hfirst]

theorem concat_rename {α : Type} (trace trace' : α → AccessTrace) (items : List α)
    (h : ∀ item, trace' item = (trace item).rename r) :
    concat (items.map trace') = (concat (items.map trace)).rename r := by
  induction items with
  | nil => rfl
  | cons item rest ih =>
    rw [List.map_cons, List.map_cons, concat_cons, concat_cons, append_rename, ih, h]

end AccessTrace

section Accesses

variable {r : Renaming}

theorem Expression.reading_rename (label : Label) (expression : Expression) :
    (expression.rename r).reading (label.rename r) = (expression.reading label).rename r := rfl

theorem Expression.writing_rename (label : Label) (target : Expression) :
    (target.rename r).writing (label.rename r) = (target.writing label).rename r := by
  induction target using writing.induct with
  | case1 uid name => rfl
  | case2 uid function params ih =>
    have hparams := AccessTrace.concat_rename (r := r) (reading label)
      (fun param => (param.rename r).reading (label.rename r)) params fun _ => rfl
    rw [rename, writing, ih, writing, AccessTrace.append_rename, listRename_eq_map, List.map_map]
    exact congrArg (· ++ _) hparams
  | case3 expression hidentifier hindex =>
    cases expression with
    | identifier uid name => exact absurd rfl (hidentifier uid name)
    | index uid function params => exact absurd rfl (hindex uid function params)
    | _ => rfl

namespace Statement

theorem under_rename (statement : Statement) (label? : Option Label)
    {found found' : Label → AccessTrace}
    (h : ∀ label, found' (label.rename r) = (found label).rename r) :
    accesses.under (statement.rename r) (label?.map (Label.rename r)) found' =
      (accesses.under statement label? found).rename r := by
  cases label? with
  | none => simp [accesses.under, AccessTrace.halt, AccessTrace.rename, Diagnostic.rename,
      Diagnostic.of, Problem.rename]
  | some label => exact h label

theorem bindings_rename (label : Label) (bindings : List VariableDecl) :
    AccessTrace.concat ((bindings.map (VariableDecl.rename r)).filterMap fun decl =>
        decl.value.map (Expression.reading (label.rename r))) =
      (AccessTrace.concat (bindings.filterMap fun decl =>
        decl.value.map (Expression.reading label))).rename r := by
  induction bindings with
  | nil => rfl
  | cons decl rest ih =>
    cases hvalue : decl.value with
    | none => simpa [VariableDecl.rename, hvalue] using ih
    | some value =>
      simp only [List.map_cons, List.filterMap_cons, VariableDecl.rename, hvalue, Option.map_some,
        AccessTrace.concat_cons, AccessTrace.append_rename]
      rw [← ih]
      rfl

mutual

theorem accesses_rename (label? : Option Label) (statement : Statement) :
    (statement.rename r).accesses (label?.map (Label.rename r)) =
      (statement.accesses label?).rename r := by
  cases statement with
  | labeled mark label body => exact listAccesses_rename (some label) body
  | whileDo mark condition body =>
    refine under_rename (.whileDo mark condition body) label? fun label => ?_
    rw [AccessTrace.append_rename, Expression.reading_rename, listAccesses_rename label? body]
  | ifElse mark condition yes no =>
    refine under_rename (.ifElse mark condition yes no) label? fun label => ?_
    rw [AccessTrace.append_rename, AccessTrace.append_rename, Expression.reading_rename,
      listAccesses_rename label? yes, listAccesses_rename label? no]
  | either mark cases =>
    exact under_rename (.either mark cases) label? fun label => casesAccesses_rename label? cases
  | assign mark pairs =>
    refine under_rename (.assign mark pairs) label? fun label => ?_
    rw [List.map_map]
    apply AccessTrace.concat_rename
    intro pair
    rw [AccessTrace.append_rename, ← Expression.writing_rename, ← Expression.reading_rename]
    rfl
  | call mark target arguments =>
    refine under_rename (.call mark target arguments) label? fun label => ?_
    rw [List.map_map]
    exact AccessTrace.concat_rename _ _ arguments fun argument => rfl
  | withDo mark bindings body =>
    refine under_rename (.withDo mark bindings body) label? fun label => ?_
    rw [AccessTrace.append_rename, listAccesses_rename label? body, bindings_rename]
  | leave mark => exact under_rename (.leave mark) label? fun _ => rfl
  | skip mark => exact under_rename (.skip mark) label? fun _ => rfl
  | macroCall mark target arguments =>
    exact under_rename (.macroCall mark target arguments) label? fun _ => rfl
  | print mark value => exact under_rename (.print mark value) label? fun _ => rfl
  | assert mark value => exact under_rename (.assert mark value) label? fun _ => rfl
  | await mark value => exact under_rename (.await mark value) label? fun _ => rfl
  | goto mark target => exact under_rename (.goto mark target) label? fun _ => rfl

theorem listAccesses_rename (label? : Option Label) (statements : List Statement) :
    listAccesses (label?.map (Label.rename r)) (listRename r statements) =
      (listAccesses label? statements).rename r := by
  cases statements with
  | nil => rfl
  | cons statement rest =>
    rw [listRename, listAccesses, listAccesses, AccessTrace.append_rename,
      accesses_rename label? statement, listAccesses_rename label? rest]

theorem casesAccesses_rename (label? : Option Label) (cases : List (List Statement)) :
    casesAccesses (label?.map (Label.rename r)) (casesRename r cases) =
      (casesAccesses label? cases).rename r := by
  cases cases with
  | nil => rfl
  | cons body rest =>
    rw [casesRename, casesAccesses, casesAccesses, AccessTrace.append_rename,
      listAccesses_rename label? body, casesAccesses_rename label? rest]

end

end Statement

end Accesses

/-! ## Labels -/

namespace LabelAccesses

def rename (r : Renaming) (accesses : LabelAccesses) : LabelAccesses :=
  ⟨r accesses.label, accesses.name, accesses.reads.rename r, accesses.writes.rename r⟩

variable {r : Renaming}

theorem add_rename (accesses : LabelAccesses) (isWrite : Bool) (globals : List Uid) :
    (accesses.rename r).add isWrite (globals.map r) = (accesses.add isWrite globals).rename r := by
  cases isWrite <;> simp [add, rename, UidSet.union_rename]

theorem touchesGlobals_rename (accesses : LabelAccesses) :
    (accesses.rename r).touchesGlobals = accesses.touchesGlobals := by
  simp [touchesGlobals, rename, UidSet.isEmpty_rename]

end LabelAccesses

namespace Statement

variable {r : Renaming}

mutual

theorem labels_rename (owner : String) (statement : Statement) :
    (statement.rename r).labels owner =
      (statement.labels owner).map (LabelAccesses.rename r) := by
  cases statement with
  | labeled mark label body =>
    rw [rename, labels, listLabels_rename owner body, labels, List.map_cons]
    rfl
  | whileDo mark condition body => exact listLabels_rename owner body
  | ifElse mark condition yes no =>
    rw [rename, labels, listLabels_rename owner yes, listLabels_rename owner no, labels,
      List.map_append]
  | either mark cases => exact casesLabels_rename owner cases
  | withDo mark bindings body => exact listLabels_rename owner body
  | _ => rfl

theorem listLabels_rename (owner : String) (statements : List Statement) :
    listLabels owner (listRename r statements) =
      (listLabels owner statements).map (LabelAccesses.rename r) := by
  cases statements with
  | nil => rfl
  | cons statement rest =>
    rw [listRename, listLabels, labels_rename owner statement, listLabels_rename owner rest,
      listLabels, List.map_append]

theorem casesLabels_rename (owner : String) (cases : List (List Statement)) :
    casesLabels owner (casesRename r cases) =
      (casesLabels owner cases).map (LabelAccesses.rename r) := by
  cases cases with
  | nil => rfl
  | cons body rest =>
    rw [casesRename, casesLabels, listLabels_rename owner body, casesLabels_rename owner rest,
      casesLabels, List.map_append]

end

end Statement

/-! ## Recording -/

section Recording

variable {r : Renaming} (hr : Function.Injective r)
include hr

theorem Definitions.globalsIn_rename (definitions : Definitions) (identifiers : List Uid) :
    (definitions.rename r).globalsIn (identifiers.map r) =
      r.result (List.map r) (definitions.globalsIn identifiers) := by
  induction identifiers with
  | nil => rfl
  | cons identifier rest ih =>
    refine Renaming.bind (followReference_rename hr definitions identifier) fun declaration => ?_
    refine Renaming.bind ih fun globals => ?_
    rw [isGlobal_rename hr]
    cases definitions.isGlobal declaration <;> rfl

namespace LabelAccesses

theorem addFirst?_rename (label : Uid) (isWrite : Bool) (globals : List Uid)
    (labels : List LabelAccesses) :
    addFirst? (r label) isWrite (globals.map r) (labels.map (rename r)) =
      (addFirst? label isWrite globals labels).map (List.map (rename r)) := by
  induction labels with
  | nil => rfl
  | cons accesses rest ih =>
    have hlabel : (accesses.rename r).label = r label ↔ accesses.label = label := hr.eq_iff
    simp only [List.map_cons, addFirst?, hlabel, ih, add_rename]
    split
    · rfl
    · cases addFirst? label isWrite globals rest <;> rfl

theorem record_rename (definitions : Definitions) (labels : List LabelAccesses) (access : Access) :
    record (definitions.rename r) (labels.map (rename r)) (access.rename r) =
      r.result (List.map (rename r)) (record definitions labels access) := by
  have hglobals := Definitions.globalsIn_rename hr definitions access.expression.identifiers
  rw [← Expression.identifiers_rename] at hglobals
  refine Renaming.bind hglobals fun globals => ?_
  have hadd := addFirst?_rename hr access.label.uid access.isWrite globals labels.reverse
  rw [List.map_reverse] at hadd
  simp only [Access.rename, Label.rename, hadd]
  cases addFirst? access.label.uid access.isWrite globals labels.reverse with
  | none => rfl
  | some back => simp [pure, Except.pure, Renaming.result]

theorem recordAll_rename (definitions : Definitions) (accesses : List Access)
    (labels : List LabelAccesses) :
    recordAll (definitions.rename r) (labels.map (rename r)) (accesses.map (Access.rename r)) =
      r.result (List.map (rename r)) (recordAll definitions labels accesses) := by
  induction accesses generalizing labels with
  | nil => rfl
  | cons access rest ih => exact Renaming.bind (record_rename hr definitions labels access) ih

theorem recordBody_rename (definitions : Definitions) (labels : List LabelAccesses)
    (owner : String) (body : List Statement) :
    recordBody (definitions.rename r) (labels.map (rename r)) owner (Statement.listRename r body) =
      r.result (List.map (rename r)) (recordBody definitions labels owner body) := by
  have htrace : Statement.bodyAccesses (Statement.listRename r body) =
      (Statement.bodyAccesses body).rename r := Statement.listAccesses_rename none body
  have hrecord := recordAll_rename hr definitions (Statement.bodyAccesses body).accesses
    (labels ++ Statement.listLabels owner body)
  rw [List.map_append, ← Statement.listLabels_rename] at hrecord
  simp only [recordBody, htrace, AccessTrace.rename]
  refine Renaming.bind hrecord fun labels => ?_
  cases (Statement.bodyAccesses body).problem? <;> rfl

theorem recordBodies_rename (definitions : Definitions) (bodies : List (String × List Statement))
    (labels : List LabelAccesses) :
    recordBodies (definitions.rename r) (labels.map (rename r))
        (bodies.map fun (owner, body) => (owner, Statement.listRename r body)) =
      r.result (List.map (rename r)) (recordBodies definitions labels bodies) := by
  induction bodies generalizing labels with
  | nil => rfl
  | cons body rest ih =>
    exact Renaming.bind (recordBody_rename hr definitions labels body.1 body.2) ih

end LabelAccesses

omit hr in
theorem Algorithm.bodies_rename (algorithm : Algorithm) :
    (algorithm.rename r).bodies =
      algorithm.bodies.map fun (owner, body) => (owner, Statement.listRename r body) := by
  simp only [bodies, rename, List.map_append, List.map_map]
  rfl

end Recording

end PlusCalGo
