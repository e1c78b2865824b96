import PlusCalGo.Proofs.Locking.Groups
import PlusCalGo.Proofs.Locking.Order
import PlusCalGo.Proofs.Resolution.Texts

/-!
# What inference accepts

A resolved algorithm has lock groups exactly if its bodies are made of labeled statements. The
search for accesses goes wherever resolution goes, identifiers are linked, labels are declared where
they stand, and groups come in their order: nothing else can go wrong.
-/

namespace PlusCalGo

/-! ## Accesses of resolved statements -/

section Accesses

variable {under : Uid → Prop} {label : Label}

theorem AccessTrace.all_nil {property : Access → Prop} : nil.All property :=
  ⟨rfl, List.forall_mem_nil _⟩

theorem Expression.reading_all (hlabel : under label.uid) (expression : Expression) :
    (expression.reading label).All fun access => under access.label.uid :=
  AccessTrace.all_one.2 hlabel

/-- Targets that resolution accepts have a variable at their root. -/
theorem Expression.writing_all (hlabel : under label.uid) {target : Expression}
    (h : ¬ target.assignmentRoot?.isNone = true) :
    (target.writing label).All fun access => under access.label.uid := by
  induction target using Expression.writing.induct with
  | case1 uid name => exact AccessTrace.all_one.2 hlabel
  | case2 uid function params ih =>
    refine AccessTrace.all_append.2 ⟨AccessTrace.all_concat.2 ?_, ih h⟩
    intro trace htrace
    obtain ⟨param, _, rfl⟩ := List.mem_map.1 htrace
    exact reading_all hlabel param
  | case3 expression hidentifier hindex =>
    rw [assignmentRoot?.eq_3 expression hidentifier hindex] at h
    exact absurd rfl h

theorem AssignmentPair.accesses_under (hlabel : under label.uid) {scopes : Scopes}
    {location : TextLocation} (pairs : List AssignmentPair) {before after : Definitions}
    (h : resolveList scopes location pairs before = .ok after) :
    ∀ pair ∈ pairs, (pair.lhs.writing label ++ pair.rhs.reading label).All
      fun access => under access.label.uid := by
  induction pairs generalizing before with
  | nil => exact List.forall_mem_nil _
  | cons pair rest ih =>
    simp only [resolveList] at h
    split at h
    · cases h
    rename_i hroot
    obtain ⟨first, _, h⟩ := ok_of_bind h
    obtain ⟨second, _, hrest⟩ := ok_of_bind h
    refine List.forall_mem_cons.2 ⟨AccessTrace.all_append.2 ⟨?_, ?_⟩, ih hrest⟩
    · exact Expression.writing_all hlabel hroot
    · exact Expression.reading_all hlabel pair.rhs

end Accesses

namespace Statement

section Resolved

variable {arities : Arities} {under : Uid → Prop}

mutual

/-- Below a label the accesses of a resolved statement are complete, and each stands under that
label or under one of the labels in the statement. -/
theorem accesses_under (label : Label) (statement : Statement) {scopes : Scopes}
    {before after : Definitions} (h : statement.resolve arities scopes before = .ok after)
    (hlabel : under label.uid) (hinner : ∀ uid ∈ statement.labelUids, under uid) :
    (statement.accesses (some label)).All fun access => under access.label.uid := by
  have hreading := Expression.reading_all hlabel
  cases statement with
  | labeled mark inner body =>
    obtain ⟨hfirst, hrest⟩ := List.forall_mem_cons.1 hinner
    exact listAccesses_under inner body h hfirst hrest
  | whileDo mark condition body =>
    obtain ⟨between, _, hbody⟩ := ok_of_bind h
    have hbody := listAccesses_under label body hbody hlabel hinner
    exact AccessTrace.all_append.2 ⟨hreading condition, hbody⟩
  | ifElse mark condition yes no =>
    obtain ⟨first, _, h⟩ := ok_of_bind h
    obtain ⟨second, hyes, hno⟩ := ok_of_bind h
    obtain ⟨hyesInner, hnoInner⟩ := List.forall_mem_append.1 hinner
    have hyes := listAccesses_under label yes hyes hlabel hyesInner
    have hno := listAccesses_under label no hno hlabel hnoInner
    exact AccessTrace.all_append.2 ⟨hreading condition, AccessTrace.all_append.2 ⟨hyes, hno⟩⟩
  | either mark cases =>
    simp only [resolve] at h
    split at h
    · cases h
    · exact casesAccesses_under label cases h hlabel hinner
  | assign mark pairs =>
    have hpairs := AssignmentPair.accesses_under hlabel pairs h
    exact AccessTrace.all_concat.2 (List.forall_mem_map.2 hpairs)
  | leave mark => exact AccessTrace.all_nil
  | skip mark => exact AccessTrace.all_nil
  | call mark target arguments =>
    exact AccessTrace.all_concat.2 (List.forall_mem_map.2 fun argument _ => hreading argument)
  | macroCall mark target arguments => cases h
  | withDo mark bindings body =>
    obtain ⟨inside, _, hbody⟩ := ok_of_bind h
    have hbody := listAccesses_under label body hbody hlabel hinner
    refine AccessTrace.all_append.2 ⟨AccessTrace.all_concat.2 ?_, hbody⟩
    intro trace htrace
    obtain ⟨decl, _, hvalue⟩ := List.mem_filterMap.1 htrace
    obtain ⟨value, _, rfl⟩ := Option.map_eq_some_iff.1 hvalue
    exact hreading value
  | print mark value => exact hreading value
  | assert mark value => exact hreading value
  | await mark value => exact hreading value
  | goto mark target => exact AccessTrace.all_nil

theorem listAccesses_under (label : Label) (statements : List Statement) {scopes : Scopes}
    {before after : Definitions} (h : listResolve arities scopes statements before = .ok after)
    (hlabel : under label.uid) (hinner : ∀ uid ∈ listLabelUids statements, under uid) :
    (listAccesses (some label) statements).All fun access => under access.label.uid := by
  cases statements with
  | nil => exact AccessTrace.all_nil
  | cons statement rest =>
    obtain ⟨between, hstatement, hrest⟩ := ok_of_bind h
    obtain ⟨hfirst, hothers⟩ := List.forall_mem_append.1 hinner
    have hstatement := accesses_under label statement hstatement hlabel hfirst
    have hrest := listAccesses_under label rest hrest hlabel hothers
    exact AccessTrace.all_append.2 ⟨hstatement, hrest⟩

private theorem casesAccesses_under (label : Label) (cases : List (List Statement))
    {scopes : Scopes} {before after : Definitions}
    (h : casesResolve arities scopes cases before = .ok after) (hlabel : under label.uid)
    (hinner : ∀ uid ∈ casesLabelUids cases, under uid) :
    (casesAccesses (some label) cases).All fun access => under access.label.uid := by
  cases cases with
  | nil => exact AccessTrace.all_nil
  | cons body rest =>
    obtain ⟨between, hbody, hrest⟩ := ok_of_bind h
    obtain ⟨hfirst, hothers⟩ := List.forall_mem_append.1 hinner
    have hbody := listAccesses_under label body hbody hlabel hfirst
    have hrest := casesAccesses_under label rest hrest hlabel hothers
    exact AccessTrace.all_append.2 ⟨hbody, hrest⟩

end

/-! ## Bodies -/

/-- A statement outside of all labels is accessed only if it has a label itself. -/
theorem accesses_none {statement : Statement} (h : statement.isLabeled = false) :
    statement.accesses none = .halt (.outsideLabel statement.uid) := by
  cases statement with
  | labeled mark label body => cases h
  | _ => rfl

/-- In front of the first statement without label, a body has all its accesses. -/
theorem listAccesses_takeWhile (body : List Statement) {scopes : Scopes}
    {before after : Definitions} (h : listResolve arities scopes body before = .ok after)
    (hinner : ∀ uid ∈ listLabelUids body, under uid) :
    (listAccesses none (body.takeWhile (·.isLabeled))).All
      fun access => under access.label.uid := by
  induction body generalizing before with
  | nil => exact AccessTrace.all_nil
  | cons statement rest ih =>
    obtain ⟨between, hstatement, hrest⟩ := ok_of_bind h
    obtain ⟨hfirst, hothers⟩ := List.forall_mem_append.1 hinner
    cases hlabeled : statement.isLabeled with
    | false =>
      rw [List.takeWhile_cons_of_neg (by simp [hlabeled])]
      exact AccessTrace.all_nil
    | true =>
      rw [List.takeWhile_cons_of_pos hlabeled]
      cases statement with
      | labeled mark label inner =>
        obtain ⟨hlabel, hinner⟩ := List.forall_mem_cons.1 hfirst
        have hbody := listAccesses_under label inner hstatement hlabel hinner
        exact AccessTrace.all_append.2 ⟨hbody, ih hrest hothers⟩
      | _ => cases hlabeled

/-- The search in a body ends at the first statement without label. -/
theorem bodyAccesses_eq (body : List Statement)
    (h : (listAccesses none (body.takeWhile (·.isLabeled))).problem? = none) :
    bodyAccesses body = ⟨(listAccesses none (body.takeWhile (·.isLabeled))).accesses,
      (body.find? fun statement => !statement.isLabeled).map
        fun statement => .of (.outsideLabel statement.uid)⟩ := by
  rw [bodyAccesses]
  induction body with
  | nil => rfl
  | cons statement rest ih =>
    have hcons (others : List Statement) : listAccesses none (statement :: others) =
        statement.accesses none ++ listAccesses none others := rfl
    cases hlabeled : statement.isLabeled with
    | false =>
      rw [List.takeWhile_cons_of_neg (by simp [hlabeled]), hcons, accesses_none hlabeled,
        List.find?_cons_of_pos (by simp [hlabeled])]
      rfl
    | true =>
      rw [List.takeWhile_cons_of_pos hlabeled, hcons] at h
      rw [List.takeWhile_cons_of_pos hlabeled, List.find?_cons_of_neg (by simp [hlabeled])]
      obtain ⟨hfirst, hrest⟩ := AccessTrace.append_problem.1 h
      rw [hcons, hcons, AccessTrace.append_eq, hfirst, ih hrest,
        AccessTrace.append_accesses hfirst]

end Resolved

theorem mem_listOccurrences {label? : Option Uid} {naming : Naming} {statements : List Statement}
    {occurrence : Occurrence} : occurrence ∈ listOccurrences label? naming statements ↔
      ∃ statement ∈ statements, occurrence ∈ statement.occurrences label? naming := by
  induction statements with
  | nil => simp [listOccurrences]
  | cons statement rest ih => simp [listOccurrences, ih]

/-- What is found in a body in front of the first statement without label can be recorded. -/
structure Recordable (definitions : Definitions) (body : List Statement) : Prop where
  problem : (bodyAccesses body).problem? = (body.find? fun statement => !statement.isLabeled).map
    fun statement => .of (.outsideLabel statement.uid)
  declared : ∀ access ∈ (bodyAccesses body).accesses, access.label.uid ∈ listLabelUids body
  linked : ∀ access ∈ (bodyAccesses body).accesses, ∀ identifier ∈ access.expression.identifiers,
    ∃ definition, definitions.resolve identifier = .ok definition

theorem recordable_of_resolve {arities : Arities} {scopes : Scopes}
    {before after definitions : Definitions} (naming : Naming) (body : List Statement)
    (h : listResolve arities scopes body before = .ok after)
    (hlinked : ∀ occurrence ∈ listOccurrences none naming body,
      ∃ definition, definitions.resolve occurrence.uid = .ok definition) :
    Recordable definitions body := by
  obtain ⟨hproblem, hdeclared⟩ := listAccesses_takeWhile body h fun _ hmem => hmem
  have hbody := bodyAccesses_eq body hproblem
  have hfront : (body.takeWhile (·.isLabeled)) <+: body := List.takeWhile_prefix _
  constructor
  · rw [hbody]
  · rw [hbody]
    exact hdeclared
  · rw [hbody]
    intro access haccess identifier hidentifier
    have huse : (some access.label.uid, access.isWrite, identifier) ∈
        (listAccesses none (body.takeWhile (·.isLabeled))).accesses.flatMap Access.uses :=
      List.mem_flatMap.2 ⟨access, haccess, Access.mem_uses.2 ⟨rfl, rfl, hidentifier⟩⟩
    rw [tells_listAccesses none naming _ hproblem] at huse
    obtain ⟨occurrence, hoccurrence, huse⟩ := List.mem_map.1 huse
    obtain ⟨statement, hmem, hoccurrence⟩ := mem_listOccurrences.1 hoccurrence
    have hoccurs := mem_listOccurrences.2 ⟨statement, hfront.subset hmem, hoccurrence⟩
    obtain ⟨definition, hdefinition⟩ := hlinked occurrence hoccurs
    simp only [Occurrence.use, Prod.mk.injEq] at huse
    rw [huse.2.2] at hdefinition
    exact ⟨definition, hdefinition⟩

end Statement

section Bodies

variable {arities : Arities} {scopes : Scopes} {before after : Definitions}

theorem Procedure.listResolve_of_resolveList {procedures : List Procedure} {procedure : Procedure}
    (h : resolveList arities scopes procedures before = .ok after) (hmem : procedure ∈ procedures) :
    ∃ inside first last, Statement.listResolve arities inside procedure.body first = .ok last := by
  induction procedures generalizing before with
  | nil => cases hmem
  | cons other rest ih =>
    obtain ⟨between, hother, hrest⟩ := ok_of_bind h
    rcases List.mem_cons.1 hmem with rfl | hmem
    · obtain ⟨_, _, hother⟩ := ok_of_bind hother
      obtain ⟨_, _, hother⟩ := ok_of_bind hother
      obtain ⟨_, _, hbody⟩ := ok_of_bind hother
      exact ⟨_, _, _, hbody⟩
    · exact ih hrest hmem

theorem Process.listResolve_of_resolveList {processes : List Process} {process : Process}
    (h : resolveList arities scopes processes before = .ok after) (hmem : process ∈ processes) :
    ∃ inside first last, Statement.listResolve arities inside process.body first = .ok last := by
  induction processes generalizing before with
  | nil => cases hmem
  | cons other rest ih =>
    obtain ⟨between, hother, hrest⟩ := ok_of_bind h
    rcases List.mem_cons.1 hmem with rfl | hmem
    · obtain ⟨_, _, hother⟩ := ok_of_bind hother
      obtain ⟨_, _, hother⟩ := ok_of_bind hother
      obtain ⟨_, _, hother⟩ := ok_of_bind hother
      obtain ⟨_, _, hbody⟩ := ok_of_bind hother
      exact ⟨_, _, _, hbody⟩
    · exact ih hrest hmem

theorem Algorithm.recordable_of_resolve {algorithm : Algorithm} {definitions : Definitions}
    (h : algorithm.resolve = .ok definitions) :
    ∀ body ∈ algorithm.bodies, Statement.Recordable definitions body.2 := by
  have hlinked := resolve_of_occurrence h
  obtain ⟨_, _, h⟩ := ok_of_bind h
  obtain ⟨_, _, h⟩ := ok_of_bind h
  obtain ⟨_, _, h⟩ := ok_of_bind h
  obtain ⟨_, hprocedures, hprocesses⟩ := ok_of_bind h
  intro body hbody
  rcases List.mem_append.1 hbody with hbody | hbody
  · obtain ⟨process, hmem, rfl⟩ := List.mem_map.1 hbody
    obtain ⟨_, _, _, hresolve⟩ := Process.listResolve_of_resolveList hprocesses hmem
    refine Statement.recordable_of_resolve (process.naming algorithm.naming) _ hresolve ?_
    intro occurrence hoccurrence
    apply hlinked
    exact List.mem_append_right _ (List.mem_flatMap.2 ⟨process, hmem, hoccurrence⟩)
  · obtain ⟨procedure, hmem, rfl⟩ := List.mem_map.1 hbody
    obtain ⟨_, _, _, hresolve⟩ := Procedure.listResolve_of_resolveList hprocedures hmem
    refine Statement.recordable_of_resolve (procedure.naming algorithm.naming) _ hresolve ?_
    intro occurrence hoccurrence
    apply hlinked
    exact List.mem_append_left _ (List.mem_flatMap.2 ⟨procedure, hmem, hoccurrence⟩)

end Bodies

/-! ## Recording -/

section Recording

variable {definitions : Definitions}

theorem Definitions.globalsIn_of_resolve {identifiers : List Uid}
    (h : ∀ identifier ∈ identifiers,
      ∃ definition, definitions.resolve identifier = .ok definition) :
    ∃ globals, definitions.globalsIn identifiers = .ok globals := by
  induction identifiers with
  | nil => exact ⟨[], rfl⟩
  | cons identifier rest ih =>
    obtain ⟨hfirst, hrest⟩ := List.forall_mem_cons.1 h
    obtain ⟨definition, hfirst⟩ := hfirst
    obtain ⟨declaration, hfollow, _⟩ := ok_of_bind hfirst
    obtain ⟨globals, hglobals⟩ := ih hrest
    simp [globalsIn, hfollow, hglobals, bind, Except.bind, pure, Except.pure]

namespace LabelAccesses

theorem addFirst?_of_mem (isWrite : Bool) (globals : List Uid) {label : Uid}
    {labels : List LabelAccesses} (h : label ∈ labels.map (·.label)) :
    ∃ after, addFirst? label isWrite globals labels = some after := by
  induction labels with
  | nil => cases h
  | cons accesses rest ih =>
    by_cases hlabel : accesses.label = label
    · exact ⟨_, by rw [addFirst?, if_pos hlabel]⟩
    · have hrest : label ∈ rest.map (·.label) := by
        rcases List.mem_cons.1 h with hfirst | hrest
        · exact absurd hfirst.symm hlabel
        · exact hrest
      obtain ⟨others, hothers⟩ := ih hrest
      exact ⟨accesses :: others, by rw [addFirst?, if_neg hlabel, hothers, Option.map_some]⟩

/-- An access under a declared label is recorded, and no label is lost. -/
theorem record_of_declared {labels : List LabelAccesses} {access : Access}
    (hlabel : access.label.uid ∈ labels.map (·.label))
    (hlinked : ∀ identifier ∈ access.expression.identifiers,
      ∃ definition, definitions.resolve identifier = .ok definition) :
    ∃ after, record definitions labels access = .ok after ∧
      after.map (·.label) = labels.map (·.label) := by
  obtain ⟨globals, hglobals⟩ := Definitions.globalsIn_of_resolve hlinked
  have hback : access.label.uid ∈ labels.reverse.map (·.label) := by
    rw [List.map_reverse, List.mem_reverse]
    exact hlabel
  obtain ⟨back, hadd⟩ := addFirst?_of_mem access.isWrite globals hback
  have hrecord : record definitions labels access = .ok back.reverse := by
    simp [record, hglobals, hadd, bind, Except.bind, pure, Except.pure]
  obtain ⟨front, old, back, rfl, _, hafter⟩ := record_ok hrecord
  refine ⟨_, hrecord, ?_⟩
  rw [hafter]
  simp

theorem recordAll_of_declared (accesses : List Access) {labels : List LabelAccesses}
    (hlabels : ∀ access ∈ accesses, access.label.uid ∈ labels.map (·.label))
    (hlinked : ∀ access ∈ accesses, ∀ identifier ∈ access.expression.identifiers,
      ∃ definition, definitions.resolve identifier = .ok definition) :
    ∃ after, recordAll definitions labels accesses = .ok after := by
  induction accesses generalizing labels with
  | nil => exact ⟨labels, rfl⟩
  | cons access rest ih =>
    obtain ⟨hlabel, hlabels⟩ := List.forall_mem_cons.1 hlabels
    obtain ⟨hfirst, hlinked⟩ := List.forall_mem_cons.1 hlinked
    obtain ⟨between, hrecord, hsame⟩ := record_of_declared hlabel hfirst
    rw [← hsame] at hlabels
    obtain ⟨after, hafter⟩ := ih hlabels hlinked
    exact ⟨after, by rw [recordAll, hrecord]; exact hafter⟩

/-- A body is recorded, unless a statement in it has no label. -/
theorem recordBody_of_recordable (labels : List LabelAccesses) (owner : String)
    {body : List Statement} (h : Statement.Recordable definitions body) :
    match body.find? fun statement => !statement.isLabeled with
    | none => ∃ after, recordBody definitions labels owner body = .ok after
    | some statement =>
      recordBody definitions labels owner body = .error (.of (.outsideLabel statement.uid)) := by
  have hlabels : ∀ access ∈ (Statement.bodyAccesses body).accesses,
      access.label.uid ∈ (labels ++ Statement.listLabels owner body).map (·.label) := by
    intro access haccess
    rw [List.map_append, Statement.label_listLabels]
    exact List.mem_append_right _ (h.declared access haccess)
  obtain ⟨after, hafter⟩ := recordAll_of_declared _ hlabels h.linked
  have hproblem := h.problem
  cases hfind : body.find? fun statement => !statement.isLabeled with
  | none =>
    rw [hfind] at hproblem
    exact ⟨after, by simp [recordBody, hafter, hproblem, bind, Except.bind, pure, Except.pure]⟩
  | some statement =>
    rw [hfind] at hproblem
    simp [recordBody, hafter, hproblem, bind, Except.bind, throw, throwThe, MonadExceptOf.throw]

/-- Bodies are recorded, unless a statement in one of them has no label. -/
theorem recordBodies_of_recordable (bodies : List (String × List Statement))
    (labels : List LabelAccesses)
    (h : ∀ body ∈ bodies, Statement.Recordable definitions body.2) :
    match (bodies.flatMap (·.2)).find? fun statement => !statement.isLabeled with
    | none => ∃ after, recordBodies definitions labels bodies = .ok after
    | some statement =>
      recordBodies definitions labels bodies = .error (.of (.outsideLabel statement.uid)) := by
  induction bodies generalizing labels with
  | nil => exact ⟨labels, rfl⟩
  | cons body rest ih =>
    obtain ⟨hbody, hrest⟩ := List.forall_mem_cons.1 h
    have hbody := recordBody_of_recordable labels body.1 hbody
    rw [List.flatMap_cons, List.find?_append]
    cases hfind : body.2.find? fun statement => !statement.isLabeled with
    | none =>
      rw [hfind] at hbody
      obtain ⟨between, hbetween⟩ := hbody
      have hnext : recordBodies definitions labels (body :: rest) =
          recordBodies definitions between rest := by
        rw [recordBodies, hbetween]
        rfl
      rw [hnext]
      exact ih between hrest
    | some statement =>
      rw [hfind] at hbody
      simp only [Option.some_or]
      rw [recordBodies, hbody]
      rfl

end LabelAccesses

end Recording

/-! ## The report -/

namespace AtomicityReport

variable {definitions : Definitions} {groups : LockGroups}

theorem namesOf_of_definition {uids : List Uid}
    (h : ∀ uid ∈ uids, ∃ definition, definitions.definition uid = .ok definition) :
    ∃ names, namesOf definitions uids = .ok names := by
  induction uids with
  | nil => exact ⟨[], rfl⟩
  | cons uid rest ih =>
    obtain ⟨hfirst, hrest⟩ := List.forall_mem_cons.1 h
    obtain ⟨definition, hfirst⟩ := hfirst
    obtain ⟨names, hnames⟩ := ih hrest
    simp [namesOf, hfirst, hnames, bind, Except.bind, pure, Except.pure]

section AddLabel

variable {report after : AtomicityReport} {accesses : LabelAccesses} {group : LockGroup}

theorem addLabel_unprotected (h : groups.groupOf? accesses.label = none) :
    addLabel definitions groups report accesses =
      .ok { report with unprotected := report.unprotected ++ [accesses.name] } := by
  simp [addLabel, h, pure, Except.pure]

/-- The first label of a group opens its entry. -/
theorem addLabel_next {reads writes : List String}
    (h : groups.groupOf? accesses.label = some group) (hnext : group.index = report.groups.length)
    (hreads : namesOf definitions (groups.readsOf group).toList = .ok reads)
    (hwrites : namesOf definitions (groups.writesOf group).toList = .ok writes) :
    addLabel definitions groups report accesses = .ok { report with
      groups := report.groups ++ [⟨group, [accesses.name], reads, writes⟩] } := by
  simp [addLabel, h, hnext, hreads, hwrites, bind, Except.bind, pure, Except.pure]

/-- Later labels of a group are added to its entry. -/
theorem addLabel_again {entry : LockGroupReport}
    (h : groups.groupOf? accesses.label = some group)
    (hentry : report.groups[group.index]? = some entry) :
    addLabel definitions groups report accesses = .ok { report with
      groups := report.groups.set group.index
        { entry with labels := entry.labels ++ [accesses.name] } } := by
  have hlt := (List.getElem?_eq_some_iff.1 hentry).1
  simp [addLabel, h, hentry, Nat.ne_of_lt hlt, bind, Except.bind, pure, Except.pure]

/-- What a label adds: to the unprotected labels, a new entry, or to the entry of its group. -/
theorem addLabel_ok (h : addLabel definitions groups report accesses = .ok after) :
    (groups.groupOf? accesses.label = none ∧
      after = { report with unprotected := report.unprotected ++ [accesses.name] }) ∨
    (∃ group reads writes, groups.groupOf? accesses.label = some group ∧
      group.index = report.groups.length ∧
      namesOf definitions (groups.readsOf group).toList = .ok reads ∧
      namesOf definitions (groups.writesOf group).toList = .ok writes ∧
      after = { report with
        groups := report.groups ++ [⟨group, [accesses.name], reads, writes⟩] }) ∨
    ∃ group entry, groups.groupOf? accesses.label = some group ∧
      report.groups[group.index]? = some entry ∧
      after = { report with
        groups := report.groups.set group.index
          { entry with labels := entry.labels ++ [accesses.name] } } := by
  cases hgroup : groups.groupOf? accesses.label with
  | none =>
    rw [addLabel_unprotected hgroup] at h
    cases h
    exact .inl ⟨rfl, rfl⟩
  | some group =>
    right
    by_cases hnext : group.index = report.groups.length
    · cases hreads : namesOf definitions (groups.readsOf group).toList with
      | error problem => simp [addLabel, hgroup, hnext, hreads, bind, Except.bind] at h
      | ok reads =>
        cases hwrites : namesOf definitions (groups.writesOf group).toList with
        | error problem => simp [addLabel, hgroup, hnext, hreads, hwrites, bind, Except.bind] at h
        | ok writes =>
          rw [addLabel_next hgroup hnext hreads hwrites] at h
          cases h
          exact .inl ⟨group, reads, writes, rfl, hnext, hreads, hwrites, rfl⟩
    · cases hentry : report.groups[group.index]? with
      | none =>
        simp [addLabel, hgroup, hnext, hentry, bind, Except.bind, pure, Except.pure, throw,
          throwThe, MonadExceptOf.throw] at h
      | some entry =>
        rw [addLabel_again hgroup hentry] at h
        cases h
        exact .inr ⟨group, entry, rfl, hentry, rfl⟩

/-- A label is reported if its group is the next one at most. -/
theorem addLabel_of_le (hnames : ∀ global, groups.Uses group global →
      ∃ definition, definitions.definition global = .ok definition)
    (h : groups.groupOf? accesses.label = some group)
    (hle : group.index ≤ report.groups.length) :
    ∃ after, addLabel definitions groups report accesses = .ok after ∧
      after.groups.length = max report.groups.length (group.index + 1) := by
  rcases Nat.eq_or_lt_of_le hle with hnext | hlt
  · have hreads : ∀ global ∈ (groups.readsOf group).toList,
        ∃ definition, definitions.definition global = .ok definition :=
      fun global hmem => hnames global (.inl (LockGroups.mem_readsOf.1 hmem))
    have hwrites : ∀ global ∈ (groups.writesOf group).toList,
        ∃ definition, definitions.definition global = .ok definition :=
      fun global hmem => hnames global (.inr (LockGroups.mem_writesOf.1 hmem))
    obtain ⟨reads, hreads⟩ := namesOf_of_definition hreads
    obtain ⟨writes, hwrites⟩ := namesOf_of_definition hwrites
    exact ⟨_, addLabel_next h hnext hreads hwrites, by simp [hnext]⟩
  · refine ⟨_, addLabel_again h (List.getElem?_eq_getElem hlt), ?_⟩
    rw [List.length_set, Nat.max_eq_left hlt]

end AddLabel

/-- Labels whose groups come in order are all reported. The groups reported so far are those of the
labels in front. -/
theorem addLabels_of_inOrder (front rest : List LabelAccesses) (report : AtomicityReport)
    (hnames : ∀ group global, groups.Uses group global →
      ∃ definition, definitions.definition global = .ok definition)
    (hinOrder : InOrder (fun accesses => groups.groupOf? accesses.label) (front ++ rest))
    (hreported : ∀ number, number < report.groups.length ↔
      ∃ accesses ∈ front, groups.groupOf? accesses.label = some ⟨number⟩) :
    ∃ after, addLabels definitions groups report rest = .ok after := by
  induction rest generalizing front report with
  | nil => exact ⟨report, rfl⟩
  | cons accesses rest ih =>
    have hstep : ∃ between, addLabel definitions groups report accesses = .ok between ∧
        ∀ number, number < between.groups.length ↔
          ∃ earlier ∈ front ++ [accesses], groups.groupOf? earlier.label = some ⟨number⟩ := by
      simp only [List.mem_append, List.mem_singleton, or_and_right, exists_or, exists_eq_left,
        ← hreported]
      cases hgroup : groups.groupOf? accesses.label with
      | none => exact ⟨_, addLabel_unprotected hgroup, by simp⟩
      | some group =>
        have hle : group.index ≤ report.groups.length := by
          by_contra hlt
          have hearlier := hinOrder front accesses rest rfl group hgroup _ (Nat.lt_of_not_le hlt)
          exact Nat.lt_irrefl _ ((hreported _).2 hearlier)
        obtain ⟨between, hadd, hlength⟩ := addLabel_of_le (hnames group) hgroup hle
        refine ⟨between, hadd, ?_⟩
        intro number
        have hsame : some group = some ⟨number⟩ ↔ group.index = number := by
          cases group
          simp
        rw [hlength, hsame]
        omega
    obtain ⟨between, hadd, hbetween⟩ := hstep
    rw [List.append_cons] at hinOrder
    obtain ⟨after, hafter⟩ := ih _ _ hinOrder hbetween
    exact ⟨after, by rw [addLabels, hadd]; exact hafter⟩

end AtomicityReport

/-! ## Inference -/

namespace Algorithm

variable {algorithm : Algorithm} {definitions : Definitions}

/-- Once the labels are recorded, they are partitioned and reported. -/
theorem inferAtomicity_of_recorded (hresolve : algorithm.resolve = .ok definitions)
    {labels : List LabelAccesses}
    (h : LabelAccesses.recordBodies definitions [] algorithm.bodies = .ok labels) :
    ∃ atomicity, algorithm.inferAtomicity definitions = .ok atomicity := by
  have hnodup := nodup_labelUids hresolve
  have hstart : Recorded definitions [] [] := ⟨by simp, by simp⟩
  rw [← labelUids_eq] at hnodup
  obtain ⟨hlabels, _, hrecorded⟩ := hstart.recordBodies algorithm.bodies hnodup h
  rw [List.map_nil, List.nil_append] at hlabels
  rw [← hlabels] at hnodup
  obtain ⟨groups, hpartition⟩ := LockGroups.partition_of_nodup hnodup
  have hinOrder := LockGroups.partition_inOrder hnodup hpartition
  have hnames : ∀ group global, groups.Uses group global →
      ∃ definition, definitions.definition global = .ok definition :=
    fun _ _ huses => hrecorded.definition_of_partition hpartition huses
  obtain ⟨report, hreport⟩ := AtomicityReport.addLabels_of_inOrder [] labels
    ⟨algorithm.name, [], []⟩ hnames hinOrder (by simp)
  refine ⟨⟨groups, report, Warning.unused definitions labels⟩, ?_⟩
  simp [inferAtomicity, h, hpartition, hreport, bind, Except.bind, pure, Except.pure]

/-- After resolution lock groups are found exactly if every statement that stands directly in a body
is a labeled one. Otherwise the first that is not is the problem. -/
theorem inferAtomicity_ok_iff (hresolve : algorithm.resolve = .ok definitions) :
    ((∃ atomicity, algorithm.inferAtomicity definitions = .ok atomicity) ↔
      ∀ body ∈ algorithm.bodies, ∀ statement ∈ body.2, statement.isLabeled = true) ∧
    ∀ diagnostic, algorithm.inferAtomicity definitions = .error diagnostic →
      diagnostic.problem.kind = .internal ∧ ∃ statement,
        (algorithm.bodies.flatMap (·.2)).find? (fun statement => !statement.isLabeled) =
            some statement ∧
          diagnostic = .of (.outsideLabel statement.uid) := by
  have hrecord := LabelAccesses.recordBodies_of_recordable algorithm.bodies []
    (recordable_of_resolve hresolve)
  cases hfind : (algorithm.bodies.flatMap (·.2)).find? fun statement => !statement.isLabeled with
  | none =>
    rw [hfind] at hrecord
    obtain ⟨labels, hrecord⟩ := hrecord
    obtain ⟨atomicity, hinfer⟩ := inferAtomicity_of_recorded hresolve hrecord
    refine ⟨⟨fun _ => ?_, fun _ => ⟨atomicity, hinfer⟩⟩, ?_⟩
    · intro body hbody statement hmem
      have hlabeled := List.find?_eq_none.1 hfind statement (List.mem_flatMap.2 ⟨body, hbody, hmem⟩)
      simpa using hlabeled
    · intro diagnostic herror
      rw [hinfer] at herror
      cases herror
  | some statement =>
    rw [hfind] at hrecord
    have hinfer : algorithm.inferAtomicity definitions =
        .error (.of (.outsideLabel statement.uid)) := by
      simp [inferAtomicity, hrecord, bind, Except.bind]
    refine ⟨⟨fun hok => ?_, fun hlabeled => ?_⟩, ?_⟩
    · obtain ⟨atomicity, hok⟩ := hok
      rw [hinfer] at hok
      cases hok
    · obtain ⟨body, hbody, hmem⟩ := List.mem_flatMap.1 (List.mem_of_find?_eq_some hfind)
      have hnot := List.find?_some hfind
      rw [hlabeled body hbody statement hmem] at hnot
      cases hnot
    · intro diagnostic herror
      rw [hinfer] at herror
      cases herror
      exact ⟨rfl, statement, rfl, rfl⟩

/-! ## A statement behind the last step

The body ends with a statement that resolution accepts, but that belongs to no step: it stands next
to the labeled statement, not in it. -/

private def trailing : Algorithm :=
  let mark (number : UInt32) : Mark := ⟨⟨number⟩, .unknown⟩
  ⟨"T", [], [⟨⟨1⟩, "x", none, .plain, .unknown⟩], [],
    [⟨⟨3⟩, "P", ⟨4⟩, .single (.number ⟨5⟩ 1), [],
      [.labeled (mark 10) ⟨⟨11⟩, "a"⟩
          [.assign (mark 12) [⟨.identifier ⟨13⟩ "x", .number ⟨14⟩ 1⟩]],
        .print (mark 20) (.identifier ⟨21⟩ "x")]⟩]⟩

private def trailingDefinitions : Definitions :=
  ⟨[⟨⟨1⟩, "x", .global .plain, .unknown⟩, ⟨⟨4⟩, "self", .processSelf, .unknown⟩],
    [(⟨21⟩, ⟨1⟩), (⟨13⟩, ⟨1⟩)]⟩

theorem inferAtomicity_ok_iff_trailing :
    trailing.resolve = .ok trailingDefinitions ∧
      trailing.inferAtomicity trailingDefinitions = .error (.of (.outsideLabel ⟨20⟩)) := by
  have hresolve : trailing.resolve = .ok trailingDefinitions := by cbv
  obtain ⟨haccepts, hrejects⟩ := inferAtomicity_ok_iff hresolve
  refine ⟨hresolve, ?_⟩
  cases hinfer : trailing.inferAtomicity trailingDefinitions with
  | ok atomicity =>
    have hlabeled := haccepts.1 ⟨atomicity, hinfer⟩ _ List.mem_cons_self _
      (List.mem_cons_of_mem _ List.mem_cons_self)
    cases hlabeled
  | error diagnostic =>
    obtain ⟨_, statement, hfind, rfl⟩ := hrejects diagnostic hinfer
    cases hfind
    rfl

end Algorithm

end PlusCalGo
