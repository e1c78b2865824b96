import Mathlib
import PlusCalGo.Proofs.Locking.Recording

/-!
# Exact lock groups

A label has a lock group exactly if its own statements touch a global variable, and two labels have
the same group exactly if a chain of conflicts leads from one to the other.
-/

namespace PlusCalGo

/-! ## Labels of bodies -/

namespace Statement

mutual

private theorem labels_eq (owner : String) (statement : Statement) :
    (statement.labels owner).map (fun accesses => (accesses.label, accesses.touched)) =
      statement.labelUids.map fun uid => (uid, fun _ => .empty) := by
  cases statement with
  | labeled mark label body =>
    have htouched : (fun isWrite => LabelAccesses.touched isWrite
        ⟨label.uid, owner ++ "." ++ label.name, .empty, .empty⟩) = fun _ => .empty := by
      funext isWrite
      cases isWrite <;> rfl
    rw [labels, labelUids, List.map_cons, List.map_cons, listLabels_eq owner body, htouched]
  | whileDo mark condition body => exact listLabels_eq owner body
  | ifElse mark condition yes no =>
    rw [labels, labelUids, List.map_append, List.map_append, listLabels_eq owner yes,
      listLabels_eq owner no]
  | either mark cases => exact casesLabels_eq owner cases
  | assign mark pairs => rfl
  | leave mark => rfl
  | skip mark => rfl
  | call mark target arguments => rfl
  | macroCall mark target arguments => rfl
  | withDo mark bindings body => exact listLabels_eq owner body
  | print mark value => rfl
  | assert mark value => rfl
  | await mark value => rfl
  | goto mark target => rfl

/-- Labels touch nothing until accesses are recorded. -/
theorem listLabels_eq (owner : String) (statements : List Statement) :
    (listLabels owner statements).map (fun accesses => (accesses.label, accesses.touched)) =
      (listLabelUids statements).map fun uid => (uid, fun _ => .empty) := by
  cases statements with
  | nil => rfl
  | cons statement rest =>
    rw [listLabels, listLabelUids, List.map_append, List.map_append, labels_eq owner statement,
      listLabels_eq owner rest]

private theorem casesLabels_eq (owner : String) (cases : List (List Statement)) :
    (casesLabels owner cases).map (fun accesses => (accesses.label, accesses.touched)) =
      (casesLabelUids cases).map fun uid => (uid, fun _ => .empty) := by
  cases cases with
  | nil => rfl
  | cons body rest =>
    rw [casesLabels, casesLabelUids, List.map_append, List.map_append, listLabels_eq owner body,
      casesLabels_eq owner rest]

end

theorem label_listLabels (owner : String) (body : List Statement) :
    (listLabels owner body).map (·.label) = listLabelUids body := by
  have hlabels := congrArg (List.map Prod.fst) (listLabels_eq owner body)
  rw [List.map_map, List.map_map] at hlabels
  exact hlabels.trans (List.map_id _)

theorem touched_listLabels (owner : String) (body : List Statement) :
    ∀ accesses ∈ listLabels owner body, ∀ isWrite, accesses.touched isWrite = .empty := by
  intro accesses hmem isWrite
  have hpair := List.mem_map_of_mem (f := fun accesses => (accesses.label, accesses.touched)) hmem
  rw [listLabels_eq] at hpair
  obtain ⟨uid, _, hsame⟩ := List.mem_map.1 hpair
  exact (congrFun (Prod.mk.inj hsame).2 isWrite).symm

mutual

private theorem labelUids_sublist (statement : Statement) :
    statement.labelUids.Sublist statement.uids := by
  cases statement with
  | labeled mark label body =>
    exact ((listLabelUids_sublist body).cons_cons label.uid).cons mark.uid
  | whileDo mark condition body =>
    exact ((listLabelUids_sublist body).trans (List.sublist_append_right _ _)).cons mark.uid
  | ifElse mark condition yes no =>
    apply List.Sublist.cons mark.uid
    rw [List.append_assoc]
    exact ((listLabelUids_sublist yes).append (listLabelUids_sublist no)).trans
      (List.sublist_append_right _ _)
  | either mark cases => exact (casesLabelUids_sublist cases).cons mark.uid
  | assign mark pairs => exact List.nil_sublist _
  | leave mark => exact List.nil_sublist _
  | skip mark => exact List.nil_sublist _
  | call mark target arguments => exact List.nil_sublist _
  | macroCall mark target arguments => exact List.nil_sublist _
  | withDo mark bindings body =>
    exact ((listLabelUids_sublist body).trans (List.sublist_append_right _ _)).cons mark.uid
  | print mark value => exact List.nil_sublist _
  | assert mark value => exact List.nil_sublist _
  | await mark value => exact List.nil_sublist _
  | goto mark target => exact List.nil_sublist _

theorem listLabelUids_sublist (statements : List Statement) :
    (listLabelUids statements).Sublist (listUids statements) := by
  cases statements with
  | nil => exact List.nil_sublist _
  | cons statement rest => exact (labelUids_sublist statement).append (listLabelUids_sublist rest)

private theorem casesLabelUids_sublist (cases : List (List Statement)) :
    (casesLabelUids cases).Sublist (casesUids cases) := by
  cases cases with
  | nil => exact List.nil_sublist _
  | cons body rest => exact (listLabelUids_sublist body).append (casesLabelUids_sublist rest)

end

end Statement

/-! ## Recording bodies -/

section Bodies

variable {definitions : Definitions} {labels after : List LabelAccesses} {uses : List Use}

/-- Labels of another body, which nothing is recorded of. -/
theorem Recorded.append {fresh : List LabelAccesses} (hrecorded : Recorded definitions labels uses)
    (hnodup : (labels.map (·.label) ++ fresh.map (·.label)).Nodup)
    (hfresh : ∀ accesses ∈ fresh, ∀ isWrite, accesses.touched isWrite = .empty) :
    Recorded definitions (labels ++ fresh) uses where
  touched := by
    intro accesses hmem isWrite global
    rcases List.mem_append.1 hmem with hmem | hmem
    · exact hrecorded.touched accesses hmem isWrite global
    · rw [hfresh accesses hmem isWrite]
      constructor
      · intro hglobal
        exact absurd hglobal List.not_mem_nil
      · intro huse
        exfalso
        obtain ⟨identifier, huse, _⟩ := huse
        obtain ⟨other, hother, hlabel⟩ := hrecorded.declared _ huse
        have hsame : other.label = accesses.label := (Option.some.inj hlabel).symm
        exact (List.nodup_append.1 hnodup).2.2 _ (List.mem_map_of_mem hother) _
          (List.mem_map_of_mem hmem) hsame
  declared := by
    intro use hmem
    obtain ⟨accesses, haccesses, huse⟩ := hrecorded.declared use hmem
    exact ⟨accesses, List.mem_append_left fresh haccesses, huse⟩

theorem Recorded.recordBody {owner : String} {body : List Statement}
    (hrecorded : Recorded definitions labels uses)
    (hnodup : (labels.map (·.label) ++ Statement.listLabelUids body).Nodup)
    (h : LabelAccesses.recordBody definitions labels owner body = .ok after) :
    after.map (·.label) = labels.map (·.label) ++ Statement.listLabelUids body ∧
      (Statement.bodyAccesses body).problem? = none ∧ Recorded definitions after
        (uses ++ (Statement.bodyAccesses body).accesses.flatMap Access.uses) := by
  obtain ⟨recorded, hrecord, h⟩ := ok_of_bind h
  rw [← Statement.label_listLabels owner body] at hnodup ⊢
  have hfresh := hrecorded.append hnodup (Statement.touched_listLabels owner body)
  rw [← List.map_append] at hnodup ⊢
  obtain ⟨hlabels, hafter⟩ := hfresh.recordAll _ hnodup hrecord
  split at h
  · simp [throw, throwThe, MonadExceptOf.throw] at h
  · rename_i hproblem
    cases h
    exact ⟨hlabels, hproblem, hafter⟩

theorem Recorded.recordBodies (bodies : List (String × List Statement))
    (hrecorded : Recorded definitions labels uses)
    (hnodup : (labels.map (·.label) ++
      bodies.flatMap fun body => Statement.listLabelUids body.2).Nodup)
    (h : LabelAccesses.recordBodies definitions labels bodies = .ok after) :
    after.map (·.label) = labels.map (·.label) ++
        (bodies.flatMap fun body => Statement.listLabelUids body.2) ∧
      (∀ body ∈ bodies, (Statement.bodyAccesses body.2).problem? = none) ∧
      Recorded definitions after (uses ++ bodies.flatMap fun body =>
        (Statement.bodyAccesses body.2).accesses.flatMap Access.uses) := by
  induction bodies generalizing labels uses with
  | nil =>
    cases h
    simpa using hrecorded
  | cons body rest ih =>
    obtain ⟨between, hbody, hrest⟩ := ok_of_bind h
    rw [List.flatMap_cons, ← List.append_assoc] at hnodup ⊢
    obtain ⟨hlabels, hproblem, hbetween⟩ :=
      hrecorded.recordBody (List.nodup_append.1 hnodup).1 hbody
    rw [← hlabels] at hnodup ⊢
    obtain ⟨hothers, hproblems, hafter⟩ := ih hbetween hnodup hrest
    rw [List.flatMap_cons, ← List.append_assoc]
    exact ⟨hothers, List.forall_mem_cons.2 ⟨hproblem, hproblems⟩, hafter⟩

end Bodies

/-- The variables that the groups of recorded labels use are defined as global. -/
theorem Recorded.global_of_partition {definitions : Definitions} {labels : List LabelAccesses}
    {uses : List Use} {groups : LockGroups} {group : LockGroup} {global : Uid}
    (hrecorded : Recorded definitions labels uses)
    (hpartition : LockGroups.empty.partition labels = (groups, none))
    (huses : groups.Uses group global) :
    ∃ definition, definitions.find? global = some definition ∧
      definition.kind.isGlobal = true := by
  obtain ⟨accesses, hmem, isWrite, htouched⟩ :=
    LockGroups.touched_of_partition hpartition huses
  obtain ⟨identifier, _, hglobal⟩ := (hrecorded.touched accesses hmem isWrite global).1 htouched
  obtain ⟨_, hisGlobal⟩ := Option.filter_eq_some_iff.1 hglobal
  unfold Definitions.isGlobal at hisGlobal
  split at hisGlobal
  · rename_i definition hfind
    exact ⟨definition, hfind, hisGlobal⟩
  · cases hisGlobal

theorem Recorded.definition_of_partition {definitions : Definitions} {labels : List LabelAccesses}
    {uses : List Use} {groups : LockGroups} {group : LockGroup} {global : Uid}
    (hrecorded : Recorded definitions labels uses)
    (hpartition : LockGroups.empty.partition labels = (groups, none))
    (huses : groups.Uses group global) :
    ∃ definition, definitions.definition global = .ok definition := by
  obtain ⟨definition, hfind, _⟩ := hrecorded.global_of_partition hpartition huses
  exact ⟨definition, by rw [Definitions.definition, hfind]⟩

/-! ## Inference -/

namespace Algorithm

variable {algorithm : Algorithm} {definitions : Definitions} {atomicity : Atomicity}

theorem nodup_labelUids (h : algorithm.resolve = .ok definitions) : algorithm.labelUids.Nodup := by
  have hprocedures : (algorithm.procedures.flatMap fun procedure =>
      Statement.listLabelUids procedure.body).Sublist
      (algorithm.procedures.flatMap Procedure.uids) := by
    induction algorithm.procedures with
    | nil => exact List.nil_sublist _
    | cons procedure rest ih =>
      refine List.Sublist.append ?_ ih
      exact ((Statement.listLabelUids_sublist procedure.body).trans
        (List.sublist_append_right _ _)).cons procedure.uid
  have hprocesses : (algorithm.processes.flatMap fun process =>
      Statement.listLabelUids process.body).Sublist
      (algorithm.processes.flatMap Process.uids) := by
    induction algorithm.processes with
    | nil => exact List.nil_sublist _
    | cons process rest ih =>
      refine List.Sublist.append ?_ ih
      exact (((Statement.listLabelUids_sublist process.body).trans
        (List.sublist_append_right _ _)).cons process.selfDecl).cons process.uid
  have hall := hprocedures.append hprocesses
  have huids : (algorithm.procedures.flatMap Procedure.uids ++
      algorithm.processes.flatMap Process.uids).Sublist algorithm.uids := by
    rw [uids, List.append_assoc (_ ++ _)]
    exact List.sublist_append_right _ _
  exact List.perm_append_comm.nodup_iff.1 ((hall.trans huids).nodup (nodup_of_resolve h))

theorem labelUids_eq (algorithm : Algorithm) :
    (algorithm.bodies.flatMap fun body => Statement.listLabelUids body.2) =
      algorithm.labelUids := by
  rw [bodies, List.flatMap_append, List.flatMap_map, List.flatMap_map]
  rfl

theorem inferAtomicity_ok (h : algorithm.inferAtomicity definitions = .ok atomicity) :
    ∃ labels, LabelAccesses.recordBodies definitions [] algorithm.bodies = .ok labels ∧
      LockGroups.empty.partition labels = (atomicity.groups, none) ∧
      AtomicityReport.addLabels definitions atomicity.groups ⟨algorithm.name, [], []⟩ labels =
        .ok atomicity.report ∧
      atomicity.warnings = Warning.unused definitions labels := by
  obtain ⟨labels, hrecord, h⟩ := ok_of_bind h
  refine ⟨labels, hrecord, ?_⟩
  rcases hpartition : LockGroups.empty.partition labels with ⟨groups, problem?⟩
  rw [hpartition] at h
  cases problem? with
  | some problem => simp [bind, Except.bind, throw, throwThe, MonadExceptOf.throw] at h
  | none =>
    obtain ⟨report, hreport, h⟩ := ok_of_bind h
    cases h
    exact ⟨rfl, hreport, rfl⟩

/-- The bodies of an algorithm whose groups are known tell their occurrences. -/
theorem recorded_of_inferAtomicity (hresolve : algorithm.resolve = .ok definitions)
    (h : algorithm.inferAtomicity definitions = .ok atomicity) :
    (∀ body ∈ algorithm.bodies, (Statement.bodyAccesses body.2).problem? = none) ∧
      ∃ labels, labels.map (·.label) = algorithm.labelUids ∧
        LockGroups.empty.partition labels = (atomicity.groups, none) ∧
        Recorded definitions labels ((algorithm.processOccurrences ++
          algorithm.procedureOccurrences).map Occurrence.use) := by
  obtain ⟨labels, hrecord, hpartition, _⟩ := inferAtomicity_ok h
  have hnodup := nodup_labelUids hresolve
  rw [← labelUids_eq] at hnodup
  have hstart : Recorded definitions [] [] := ⟨by simp, by simp⟩
  obtain ⟨hlabels, hproblems, hrecorded⟩ := hstart.recordBodies algorithm.bodies hnodup hrecord
  refine ⟨hproblems, labels, hlabels.trans (labelUids_eq algorithm), hpartition, ?_⟩
  have huses : (algorithm.bodies.flatMap fun body =>
      (Statement.bodyAccesses body.2).accesses.flatMap Access.uses) =
      (algorithm.processOccurrences ++ algorithm.procedureOccurrences).map Occurrence.use := by
    rw [bodies, List.flatMap_append, List.flatMap_map, List.flatMap_map, List.map_append,
      processOccurrences, procedureOccurrences, List.map_flatMap, List.map_flatMap]
    congr 1
    · apply List.flatMap_congr
      intro process hprocess
      have hbody : (process.name, process.body) ∈ algorithm.bodies :=
        List.mem_append_left _ (List.mem_map.2 ⟨process, hprocess, rfl⟩)
      exact Statement.tells_listAccesses none _ process.body (hproblems _ hbody)
    · apply List.flatMap_congr
      intro procedure hprocedure
      have hbody : (procedure.name, procedure.body) ∈ algorithm.bodies :=
        List.mem_append_right _ (List.mem_map.2 ⟨procedure, hprocedure, rfl⟩)
      exact Statement.tells_listAccesses none _ procedure.body (hproblems _ hbody)
  rw [← huses]
  exact hrecorded

/-- What is recorded of a label is what its own statements touch. -/
theorem touchedBy_iff_touches (hresolve : algorithm.resolve = .ok definitions)
    {labels : List LabelAccesses} (hrecorded : Recorded definitions labels
      ((algorithm.processOccurrences ++ algorithm.procedureOccurrences).map Occurrence.use))
    {label : Uid} {isWrite : Bool} {global : Uid} :
    TouchedBy labels label isWrite global ↔ algorithm.Touches label isWrite global := by
  have hmem : ∀ occurrence, occurrence ∈ algorithm.processOccurrences ++
      algorithm.procedureOccurrences ↔ occurrence ∈ algorithm.occurrences := by
    intro occurrence
    rw [occurrences, List.mem_append, List.mem_append, Or.comm]
  constructor
  · intro htouched
    obtain ⟨accesses, haccesses, hlabel, hglobal⟩ := htouched
    rw [hrecorded.touched accesses haccesses, hlabel] at hglobal
    obtain ⟨identifier, huse, hglobal⟩ := hglobal
    obtain ⟨occurrence, hoccurrence, huse⟩ := List.mem_map.1 huse
    have hoccurrence := (hmem occurrence).1 hoccurrence
    have hlink := globalOf?_of_resolve hresolve occurrence hoccurrence
    simp only [Occurrence.use, Prod.mk.injEq] at huse
    rw [huse.2.2, hglobal] at hlink
    exact ⟨occurrence, hoccurrence, huse.1, huse.2.1, hlink.symm⟩
  · intro htouches
    obtain ⟨occurrence, hoccurrence, hlabel, hwrite, hglobal⟩ := htouches
    have huse : (some label, isWrite, occurrence.uid) ∈ (algorithm.processOccurrences ++
        algorithm.procedureOccurrences).map Occurrence.use := by
      refine List.mem_map.2 ⟨occurrence, (hmem occurrence).2 hoccurrence, ?_⟩
      rw [Occurrence.use, hlabel, hwrite]
    obtain ⟨accesses, haccesses, hsame⟩ := hrecorded.declared _ huse
    cases hsame
    refine ⟨accesses, haccesses, rfl, (hrecorded.touched accesses haccesses isWrite global).2 ?_⟩
    refine ⟨occurrence.uid, huse, ?_⟩
    rw [globalOf?_of_resolve hresolve occurrence hoccurrence, hglobal]

/-- The groups of an algorithm are a partition of labels that are recorded to touch what their own
statements touch. -/
theorem partition_of_inferAtomicity (hresolve : algorithm.resolve = .ok definitions)
    (hinfer : algorithm.inferAtomicity definitions = .ok atomicity) :
    ∃ labels, (labels.map (·.label)).Nodup ∧
      LockGroups.empty.partition labels = (atomicity.groups, none) ∧
      TouchedBy labels = algorithm.Touches := by
  obtain ⟨_, labels, hlabels, hpartition, hrecorded⟩ := recorded_of_inferAtomicity hresolve hinfer
  have hnodup := nodup_labelUids hresolve
  rw [← hlabels] at hnodup
  refine ⟨labels, hnodup, hpartition, ?_⟩
  funext label isWrite global
  exact propext (touchedBy_iff_touches hresolve hrecorded)

/-- A label has a group exactly if its own statements touch a global variable, and two labels with
groups have the same one exactly if a chain of conflicts leads from one to the other. -/
theorem groupOf?_exact (hresolve : algorithm.resolve = .ok definitions)
    (hinfer : algorithm.inferAtomicity definitions = .ok atomicity) :
    (∀ label, (atomicity.groups.groupOf? label).isSome ↔
      ∃ isWrite global, algorithm.Touches label isWrite global) ∧
    ∀ label other group otherGroup, atomicity.groups.groupOf? label = some group →
      atomicity.groups.groupOf? other = some otherGroup →
        (group = otherGroup ↔ Chained algorithm.Touches label other) := by
  obtain ⟨labels, hnodup, hpartition, htouches⟩ := partition_of_inferAtomicity hresolve hinfer
  rw [← htouches]
  exact LockGroups.partition_spec hnodup hpartition

/-- The variables that groups use are defined as global. -/
theorem global_of_uses (hresolve : algorithm.resolve = .ok definitions)
    (hinfer : algorithm.inferAtomicity definitions = .ok atomicity) {group : LockGroup}
    {global : Uid} (huses : atomicity.groups.Uses group global) :
    ∃ definition, definitions.find? global = some definition ∧
      definition.kind.isGlobal = true := by
  obtain ⟨_, labels, _, hpartition, hrecorded⟩ := recorded_of_inferAtomicity hresolve hinfer
  exact hrecorded.global_of_partition hpartition huses

theorem definition_of_uses (hresolve : algorithm.resolve = .ok definitions)
    (hinfer : algorithm.inferAtomicity definitions = .ok atomicity) {group : LockGroup}
    {global : Uid} (huses : atomicity.groups.Uses group global) :
    ∃ definition, definitions.definition global = .ok definition := by
  obtain ⟨definition, hfind, _⟩ := global_of_uses hresolve hinfer huses
  exact ⟨definition, by rw [Definitions.definition, hfind]⟩

/-! ## Readers and writers

The step `a` reads the global `x`, which `b` writes. What `c` prints is a binding that hides `x`,
and `d` writes another global. -/

private def sharing : Algorithm :=
  let mark (number : UInt32) : Mark := ⟨⟨number⟩, .unknown⟩
  ⟨"T", [], [⟨⟨1⟩, "x", none, .plain, .unknown⟩, ⟨⟨2⟩, "y", none, .plain, .unknown⟩], [],
    [⟨⟨3⟩, "P", ⟨4⟩, .single (.number ⟨5⟩ 1), [],
      [.labeled (mark 10) ⟨⟨11⟩, "a"⟩ [.print (mark 12) (.identifier ⟨13⟩ "x")],
        .labeled (mark 20) ⟨⟨21⟩, "b"⟩
          [.assign (mark 22) [⟨.identifier ⟨23⟩ "x", .number ⟨24⟩ 1⟩]],
        .labeled (mark 30) ⟨⟨31⟩, "c"⟩
          [.withDo (mark 32) [⟨⟨33⟩, "x", some (.number ⟨34⟩ 0), .plain, .unknown⟩]
            [.print (mark 35) (.identifier ⟨36⟩ "x")]],
        .labeled (mark 40) ⟨⟨41⟩, "d"⟩
          [.assign (mark 42) [⟨.identifier ⟨43⟩ "y", .number ⟨44⟩ 1⟩]]]⟩]⟩

private def sharingDefinitions : Definitions :=
  ⟨[⟨⟨1⟩, "x", .global .plain, .unknown⟩, ⟨⟨2⟩, "y", .global .plain, .unknown⟩,
    ⟨⟨4⟩, "self", .processSelf, .unknown⟩, ⟨⟨33⟩, "x", .bound, .unknown⟩],
    [(⟨43⟩, ⟨2⟩), (⟨36⟩, ⟨33⟩), (⟨23⟩, ⟨1⟩), (⟨13⟩, ⟨1⟩)]⟩

private def sharingAtomicity : Atomicity :=
  ⟨⟨[(⟨11⟩, ⟨0⟩), (⟨21⟩, ⟨0⟩), (⟨41⟩, ⟨1⟩)], [(⟨0⟩, ⟨1⟩)], [(⟨0⟩, ⟨1⟩), (⟨1⟩, ⟨2⟩)]⟩,
    ⟨"T", [⟨⟨0⟩, ["P.a", "P.b"], ["x"], ["x"]⟩, ⟨⟨1⟩, ["P.d"], [], ["y"]⟩], ["P.c"]⟩, []⟩

theorem groupOf?_exact_sharing :
    sharing.resolve = .ok sharingDefinitions ∧
      sharing.inferAtomicity sharingDefinitions = .ok sharingAtomicity ∧
      Chained sharing.Touches ⟨11⟩ ⟨21⟩ ∧ ¬ Chained sharing.Touches ⟨11⟩ ⟨41⟩ ∧
      ¬ ∃ isWrite global, sharing.Touches ⟨31⟩ isWrite global := by
  have hresolve : sharing.resolve = .ok sharingDefinitions := by cbv
  have hinfer : sharing.inferAtomicity sharingDefinitions = .ok sharingAtomicity := by cbv
  obtain ⟨hsome, hsame⟩ := groupOf?_exact hresolve hinfer
  refine ⟨hresolve, hinfer, (hsame ⟨11⟩ ⟨21⟩ _ _ rfl rfl).1 rfl, ?_, ?_⟩
  · rw [← hsame ⟨11⟩ ⟨41⟩ ⟨0⟩ ⟨1⟩ rfl rfl]
    decide
  · rw [← hsome ⟨31⟩]
    decide

end Algorithm

end PlusCalGo
