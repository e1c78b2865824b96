import PlusCalGo.Proofs.Go.Anchors
import PlusCalGo.Proofs.Go.Erasure
import PlusCalGo.Proofs.Go.Visits
import PlusCalGo.Proofs.Locking.Traces
import PlusCalGo.Proofs.Resolution.Declarations
import PlusCalGo.Proofs.Resolution.Texts

/-!
# Prepared statements

What lowering needs of statements in order not to fail at them: their identifiers resolve, their
labels are new, statements behind the end of a step are labeled, and the state is anchored. Every
statement that lowering comes to is prepared if the body is, and the only fault of a prepared
statement is a loop that ends in another state than it began.
-/

namespace PlusCalGo

namespace Statement

variable {earlier cases : List (List Statement)} {body : List Statement}

theorem anyCaseTransfersControl_append : anyCaseTransfersControl (earlier ++ cases) =
    (anyCaseTransfersControl earlier || anyCaseTransfersControl cases) := by
  induction earlier with
  | nil => rfl
  | cons first rest ih =>
    rw [List.cons_append, anyCaseTransfersControl, ih, anyCaseTransfersControl, Bool.or_assoc]

theorem CasesNested.mem {property : List Statement → Prop} (h : CasesNested property cases)
    (hmem : body ∈ cases) : Throughout property body := by
  induction cases with
  | nil => cases hmem
  | cons first rest ih =>
    rcases List.mem_cons.1 hmem with rfl | hmem
    · exact h.1
    · exact ih h.2 hmem

theorem casesAccesses_all {property : Access → Prop} {label? : Option Label}
    (h : (casesAccesses label? cases).All property) (hmem : body ∈ cases) :
    (listAccesses label? body).All property := by
  induction cases with
  | nil => cases hmem
  | cons first rest ih =>
    obtain ⟨hfirst, hrest⟩ := AccessTrace.all_append.1 h
    rcases List.mem_cons.1 hmem with rfl | hmem
    · exact hfirst
    · exact ih hrest hmem

/-- Accesses of a statement are found under a label, unless the statement has its own. -/
theorem label_of_accesses {property : Access → Prop} {label? : Option Label}
    {statement : Statement} (h : (statement.accesses label?).All property)
    (hlabeled : statement.isLabeled = false) : ∃ label, label? = some label := by
  have hunder {found : Label → AccessTrace}
      (h : (accesses.under statement label? found).All property) :
      ∃ label, label? = some label := by
    obtain ⟨label, hlabel, _⟩ := under_all h
    exact ⟨label, hlabel⟩
  cases statement <;> first | exact hunder h | cases hlabeled

/-- All identifiers in the texts of a statement occur in it. -/
theorem occurs_of_accesses {property : Label → Uid → Prop} {label? : Option Label}
    {statement : Statement} (h : (statement.accesses label?).All (Access.Occurs property)) :
    ∀ expression ∈ statement.expressions, ∀ identifier ∈ expression.identifiers,
      ∃ label, property label identifier := by
  have hreading {label : Label} {value : Expression}
      (h : (value.reading label).All (Access.Occurs property)) :
      ∀ expression ∈ [value], ∀ identifier ∈ expression.identifiers,
        ∃ label, property label identifier := by
    intro expression hexpression identifier hidentifier
    rw [List.mem_singleton.1 hexpression] at hidentifier
    exact ⟨label, reading_occurs.1 h identifier hidentifier⟩
  cases statement with
  | whileDo mark condition body =>
    obtain ⟨label, _, h⟩ := under_all h
    exact hreading (AccessTrace.all_append.1 h).1
  | ifElse mark condition yes no =>
    obtain ⟨label, _, h⟩ := under_all h
    exact hreading (AccessTrace.all_append.1 h).1
  | assign mark pairs =>
    obtain ⟨label, _, h⟩ := under_all h
    intro expression hexpression identifier hidentifier
    obtain ⟨pair, hpair, hexpression⟩ := List.mem_flatMap.1 hexpression
    obtain ⟨hlhs, hrhs⟩ :=
      AccessTrace.all_append.1 (AccessTrace.all_concat.1 h _ (List.mem_map_of_mem hpair))
    rcases List.mem_pair.1 hexpression with rfl | rfl
    · exact ⟨label, writing_occurs hlhs identifier hidentifier⟩
    · exact ⟨label, reading_occurs.1 hrhs identifier hidentifier⟩
  | call mark target arguments =>
    obtain ⟨label, _, h⟩ := under_all h
    intro expression hexpression identifier hidentifier
    have hread := AccessTrace.all_concat.1 h _ (List.mem_map_of_mem hexpression)
    exact ⟨label, reading_occurs.1 hread identifier hidentifier⟩
  | withDo mark bindings body =>
    obtain ⟨label, _, h⟩ := under_all h
    intro expression hexpression identifier hidentifier
    obtain ⟨decl, hdecl, hvalue⟩ := List.mem_filterMap.1 hexpression
    have hread := AccessTrace.all_concat.1 (AccessTrace.all_append.1 h).1
      (expression.reading label) (List.mem_filterMap.2 ⟨decl, hdecl, by rw [hvalue]; rfl⟩)
    exact ⟨label, reading_occurs.1 hread identifier hidentifier⟩
  | print mark value =>
    obtain ⟨label, _, h⟩ := under_all h
    exact hreading h
  | assert mark value =>
    obtain ⟨label, _, h⟩ := under_all h
    exact hreading h
  | await mark value =>
    obtain ⟨label, _, h⟩ := under_all h
    exact hreading h
  | _ => exact List.forall_mem_nil _

/-- Lists of statements of which the labels are well placed. -/
abbrev Adjacent (statements : List Statement) : Prop := checkAdjacent statements = .ok ()

theorem Adjacent.tail {statement : Statement} {rest : List Statement}
    (h : Adjacent (statement :: rest)) : Adjacent rest := by
  cases rest with
  | nil => rfl
  | cons next rest =>
    simp only [Adjacent, checkAdjacent] at h
    split at h
    · cases h
    · exact h

/-- Where the next statement has no label, none is needed. -/
theorem Adjacent.head {statement next : Statement} {rest : List Statement}
    (h : Adjacent (statement :: rest)) (hnext : next ∈ rest.head?)
    (hlabeled : next.isLabeled = false) : statement.needsLabelAfter = false := by
  obtain ⟨others, rfl⟩ := List.head?_eq_some_iff.1 hnext
  simp only [Adjacent, checkAdjacent] at h
  split at h
  · cases h
  · rename_i hplaced
    simpa [hlabeled] using hplaced

end Statement

namespace Go

/-- Lowering carries the state of a body to each statement it comes to, by labels of the body. -/
theorem carries_of_visits {definitions : Definitions} {targets names : List String}
    {arrival? : Option Arrival} {statements : List Statement} {state : Progress} {visit : Visit}
    (h : Visits definitions targets arrival? statements state visit)
    (hjumps : JumpsTo names (Statement.listJumpTargets statements)) :
    ∃ labels, (∀ label ∈ labels, label ∈ Statement.listInnerLabels statements) ∧
      Carries names labels state visit.state := by
  induction h with
  | here => exact ⟨[], List.forall_mem_nil _, .refl _⟩
  | later hlower _ ih =>
    obtain ⟨hstatement, hrest⟩ := JumpsTo.append.1 hjumps
    obtain ⟨labels, hlabels, hcarries⟩ := ih hrest
    refine ⟨_, ?_, (carries_statement _ hstatement hlower).append hcarries⟩
    intro label hlabel
    exact List.mem_append.2 ((List.mem_append.1 hlabel).imp_right (hlabels label))
  | @labeled _ _ label _ _ state reached _ _ _ _ hfront _ hstart _ ih =>
    obtain ⟨labels, hlabels, hcarries⟩ := ih (JumpsTo.append.1 hjumps).1
    have hreached : Carries names [] state reached := .reached hfront
    refine ⟨_, ?_, (hreached.append (.arrive hstart)).append hcarries⟩
    intro other hother
    refine List.mem_append_left _ (List.mem_cons.2 ?_)
    rcases List.mem_append.1 hother with hother | hother
    · exact .inl (List.mem_singleton.1 hother)
    · exact .inr (hlabels other hother)
  | loop _ _ ih =>
    obtain ⟨labels, hlabels, hcarries⟩ := ih (JumpsTo.append.1 hjumps).1
    exact ⟨labels, fun label hlabel => List.mem_append_left _ (hlabels label hlabel), hcarries⟩
  | yes _ _ ih =>
    obtain ⟨labels, hlabels, hcarries⟩ := ih (JumpsTo.append.1 (JumpsTo.append.1 hjumps).1).1
    refine ⟨labels, ?_, hcarries⟩
    intro label hlabel
    exact List.mem_append_left _ (List.mem_append_left _ (hlabels label hlabel))
  | no _ hyes _ ih =>
    obtain ⟨hyesJumps, hnoJumps⟩ := JumpsTo.append.1 (JumpsTo.append.1 hjumps).1
    obtain ⟨labels, hlabels, hcarries⟩ := ih hnoJumps
    have hback := Carries.ofCloseIf hyes fun _ _ => carries_statements _ hyesJumps
    refine ⟨_, ?_, hback.putBack.append hcarries⟩
    intro label hlabel
    exact List.mem_append_left _ (List.mem_append.2
      ((List.mem_append.1 hlabel).imp_right (hlabels label)))
  | @case _ _ earlier cases body _ state last _ _ _ hearlier _ ih =>
    have hcases := (JumpsTo.append.1 hjumps).1
    rw [Statement.jumpTargets, Statement.casesJumpTargets_append] at hcases
    obtain ⟨hearlierJumps, hothers⟩ := JumpsTo.append.1 hcases
    obtain ⟨labels, hlabels, hcarries⟩ := ih (JumpsTo.append.1 hothers).1
    obtain ⟨hsame, hback⟩ :=
      carries_cases earlier (.refl state) rfl (by simp) hearlierJumps hearlier
    have hlast := hback.putBack
    rw [← hsame] at hlast
    refine ⟨_, ?_, Carries.append hlast hcarries⟩
    intro label hlabel
    refine List.mem_append_left _ ?_
    rw [Statement.innerLabels, Statement.casesInnerLabels_append]
    refine List.mem_append.2 ((List.mem_append.1 hlabel).imp_right fun hlabel => ?_)
    exact List.mem_append_left _ (hlabels label hlabel)
  | inside hbindings _ ih =>
    obtain ⟨rfl, _⟩ := noteBindings_ok hbindings
    obtain ⟨labels, hlabels, hcarries⟩ := ih (JumpsTo.append.1 hjumps).1
    exact ⟨labels, fun label hlabel => List.mem_append_left _ (hlabels label hlabel), hcarries⟩

/-- What lowering needs of statements under a label. -/
structure Prepared (definitions : Definitions) (names : List String) (label? : Option Label)
    (statements : List Statement) (state : Progress) : Prop where
  anchored : state.Anchored names
  jumps : JumpsTo names (Statement.listJumpTargets statements)
  fresh : Fresh (Statement.listInnerLabels statements) state.labels
  placed : Statement.Throughout Statement.Adjacent statements
  valued : Statement.Throughout Statement.ListValued statements
  accessed : (Statement.listAccesses label? statements).All (Access.Occurs fun _ identifier =>
    ∃ definition, definitions.resolve identifier = .ok definition)
  headed : Headed statements state.tracker

section Prepared

variable {definitions : Definitions} {targets names : List String} {label? : Option Label}
  {statement : Statement} {rest : List Statement} {state after : Progress}

namespace Prepared

/-- A statement without label is prepared under a label, and there is one to retry. -/
theorem labels (h : Prepared definitions names label? (statement :: rest) state)
    (hlabeled : statement.isLabeled = false) :
    state.tracker.label.isSome = true ∧ ∃ label, label? = some label :=
  ⟨h.headed statement rfl hlabeled,
    Statement.label_of_accesses (AccessTrace.all_append.1 h.accessed).1 hlabeled⟩

/-- Statements in a statement without label, from a state with the same tracker. -/
theorem nested (h : Prepared definitions names label? (statement :: rest) state)
    (hlabeled : statement.isLabeled = false) {body : List Statement} {earlier later : List Label}
    (hcarries : Carries names earlier state after) (hsame : after.tracker = state.tracker)
    (hjumps : JumpsTo names (Statement.listJumpTargets body))
    (hlabels : statement.innerLabels = earlier ++ (Statement.listInnerLabels body ++ later))
    (hplaced : Statement.Throughout Statement.Adjacent body)
    (hvalued : Statement.Throughout Statement.ListValued body)
    (haccessed : (Statement.listAccesses label? body).All (Access.Occurs fun _ identifier =>
      ∃ definition, definitions.resolve identifier = .ok definition)) :
    Prepared definitions names label? body after where
  anchored := hcarries.anchored h.anchored
  jumps := hjumps
  fresh := by
    have hfresh : Fresh statement.innerLabels state.labels := h.fresh.left
    rw [hlabels] at hfresh
    exact (hfresh.right fun name => (hcarries.declares name).1).left
  placed := hplaced
  valued := hvalued
  accessed := haccessed
  headed := headed_of_label (hsame ▸ (h.labels hlabeled).1)

theorem tail (h : Prepared definitions names label? (statement :: rest) state) {code : NotedCode}
    (hlower : noteStatement definitions targets label? statement state = .ok (code, after)) :
    Prepared definitions names label? rest after := by
  obtain ⟨hstatementJumps, hrestJumps⟩ := JumpsTo.append.1 h.jumps
  obtain ⟨hplaced, hnested⟩ := h.placed
  obtain ⟨hvalued, hvaluedNested⟩ := h.valued
  have hcarries := carries_statement statement hstatementJumps hlower
  refine ⟨hcarries.anchored h.anchored, hrestJumps,
    h.fresh.right fun name => (hcarries.declares name).1, ⟨hplaced.tail, hnested.2⟩,
    ⟨(List.forall_mem_cons.1 hvalued).2, hvaluedNested.2⟩,
    (AccessTrace.all_append.1 h.accessed).2, ?_⟩
  intro next hnext hlabeled
  have hhead : Headed [statement] state.tracker := h.headed
  exact label_of_statement statement hnested.1 hstatementJumps h.anchored hhead
    (hplaced.head hnext hlabeled) hlower

/-- The body of a label, when its step is begun. -/
theorem labeled {mark : Mark} {label : Label} {body : List Statement} {reached started : Progress}
    {front opening : NotedCode}
    (h : Prepared definitions names label? (.labeled mark label body :: rest) state)
    (hfront : (if label.name ∈ targets then Noting.close else pure []) state =
      .ok (front, reached))
    (hstart : Noting.start label.uid label.name
      { reached with labels := label.name :: reached.labels } = .ok (opening, started)) :
    Prepared definitions names (some label) body started := by
  have hreached : Carries names [] state reached := .reached hfront
  have hstarted : Carries names [label] state started := hreached.append (.arrive hstart)
  have hfresh : Fresh ([label] ++ Statement.listInnerLabels body) state.labels := h.fresh.left
  have hsettled := (hreached.anchored h.anchored).settled
  exact ⟨hstarted.anchored h.anchored, (JumpsTo.append.1 h.jumps).1,
    hfresh.right fun name => (hstarted.declares name).1, h.placed.2.1, h.valued.2.1,
    (AccessTrace.all_append.1 h.accessed).1, headed_of_label (label_of_start hstart hsettled)⟩

end Prepared

/-- Lowering comes to prepared statements only. -/
theorem prepared_of_visits {arrival? : Option Arrival} {statements : List Statement}
    {visit : Visit} (h : Visits definitions targets arrival? statements state visit)
    (hprepared : Prepared definitions names (arrival?.map (·.label)) statements state) :
    ∃ rest, Prepared definitions names visit.label? (visit.statement :: rest) visit.state := by
  induction h with
  | here => exact ⟨_, hprepared⟩
  | later hlower _ ih => exact ih (hprepared.tail hlower)
  | labeled hfront _ hstart _ ih => exact ih (hprepared.labeled hfront hstart)
  | @loop _ mark condition body _ state _ _ _ _ ih =>
    obtain ⟨_, _, haccessed⟩ :=
      Statement.under_all (AccessTrace.all_append.1 hprepared.accessed).1
    refine ih (hprepared.nested rfl (.refl state) rfl (JumpsTo.append.1 hprepared.jumps).1
      (List.append_nil _).symm hprepared.placed.2.1 hprepared.valued.2.1
      (AccessTrace.all_append.1 haccessed).2)
  | @yes _ mark condition yes no _ state _ _ _ _ ih =>
    obtain ⟨_, _, haccessed⟩ :=
      Statement.under_all (AccessTrace.all_append.1 hprepared.accessed).1
    have hjumps := JumpsTo.append.1 (JumpsTo.append.1 hprepared.jumps).1
    exact ih (hprepared.nested rfl (.refl state) rfl hjumps.1 rfl hprepared.placed.2.1.1
      hprepared.valued.2.1.1
      (AccessTrace.all_append.1 (AccessTrace.all_append.1 haccessed).2).1)
  | @no _ mark condition yes no _ state last _ _ _ _ hyes _ ih =>
    obtain ⟨_, _, haccessed⟩ :=
      Statement.under_all (AccessTrace.all_append.1 hprepared.accessed).1
    have hjumps := JumpsTo.append.1 (JumpsTo.append.1 hprepared.jumps).1
    have hcarries := Carries.ofCloseIf hyes fun _ _ => carries_statements yes hjumps.1
    exact ih (hprepared.nested rfl hcarries.putBack rfl hjumps.2
      (by rw [List.append_nil]; rfl) hprepared.placed.2.1.2 hprepared.valued.2.1.2
      (AccessTrace.all_append.1 (AccessTrace.all_append.1 haccessed).2).2)
  | @case _ mark earlier cases body _ state last _ _ _ hearlier _ ih =>
    obtain ⟨_, _, haccessed⟩ :=
      Statement.under_all (AccessTrace.all_append.1 hprepared.accessed).1
    have hjumps := (JumpsTo.append.1 hprepared.jumps).1
    rw [Statement.jumpTargets, Statement.casesJumpTargets_append] at hjumps
    obtain ⟨hearlierJumps, hothers⟩ := JumpsTo.append.1 hjumps
    obtain ⟨hsame, hcarries⟩ :=
      carries_cases earlier (.refl state) rfl (by simp) hearlierJumps hearlier
    have hlast : Carries names (Statement.casesInnerLabels earlier) state last := by
      have hback := hcarries.putBack
      rw [← hsame] at hback
      exact hback
    have hmem : body ∈ earlier ++ body :: cases := by simp
    exact ih (hprepared.nested rfl hlast hsame (JumpsTo.append.1 hothers).1
      Statement.casesInnerLabels_append (hprepared.placed.2.1.mem hmem)
      (hprepared.valued.2.1.mem hmem) (Statement.casesAccesses_all haccessed hmem))
  | @inside _ mark bindings body _ state bound _ _ hbindings _ ih =>
    obtain ⟨_, _, haccessed⟩ :=
      Statement.under_all (AccessTrace.all_append.1 hprepared.accessed).1
    obtain ⟨rfl, _⟩ := noteBindings_ok hbindings
    exact ih (hprepared.nested rfl (.refl bound) rfl (JumpsTo.append.1 hprepared.jumps).1
      (List.append_nil _).symm hprepared.placed.2.1 hprepared.valued.2.1
      (AccessTrace.all_append.1 haccessed).2)

/-! ## Faults of prepared statements -/

theorem start_of_declared {label : Uid} {name : String} {problem : Diagnostic}
    (hname : name ∈ state.labels) : Noting.start label name state ≠ .error problem := by
  unfold Noting.start
  rw [if_pos hname]
  split <;> simp

theorem endLoop_of_declared {entry : Option (Uid × String)} {problem : Diagnostic}
    (hentry : ∀ label ∈ entry, label.2 ∈ state.labels) :
    Noting.endLoop entry state ≠ .error problem := by
  cases entry with
  | none => simp [Noting.endLoop, Noting.close]
  | some label => exact start_of_declared (hentry label rfl)

/-- The branches of a statement keep its tracker, or all end idle. -/
theorem joins (visit : Visit) : Joins definitions targets visit where
  branches := by
    intro mark condition yes no yesCode yesLast noCode noLast _ hyes hno
    have hstays (hopen : (Statement.anyTransfersControl yes ||
        Statement.anyTransfersControl no) = false) := Bool.or_eq_false_iff.1 hopen
    have hyesLast := tracker_of_branch (fun hopen => (hstays hopen).1) hyes
    have hnoLast := tracker_of_branch (fun hopen => (hstays hopen).2) hno
    rw [hyesLast, hnoLast]
  cases := by
    intro mark earlier body later codes first before code last _ hearlier hbody
    have hstays (hopen : Statement.anyCaseTransfersControl (earlier ++ body :: later) = false) :
        Statement.anyCaseTransfersControl earlier = false ∧
          Statement.anyTransfersControl body = false := by
      rw [Statement.anyCaseTransfersControl_append, Bool.or_eq_false_iff] at hopen
      exact ⟨hopen.1, (Bool.or_eq_false_iff.1 hopen.2).1⟩
    obtain ⟨hbefore, hfirst⟩ :=
      tracker_of_cases (fun hopen => (hstays hopen).1) rfl (by simp) hearlier
    have hlast := tracker_of_branch (fun hopen => (hstays hopen).2) hbody
    rw [hlast, hbefore, hfirst first rfl]

/-- A prepared statement is at fault only if it is a loop that strays. -/
theorem strays_of_fault {visit : Visit} {problem : Diagnostic}
    (hfault : Fault definitions targets visit problem)
    (hprepared : Prepared definitions names visit.label? (visit.statement :: rest) visit.state) :
    Strays definitions targets visit problem := by
  cases hfault with
  | @text visit expression problem hmem herror =>
    exfalso
    have haccessed := (AccessTrace.all_append.1 hprepared.accessed).1
    obtain ⟨text, htext⟩ := Expression.toGo_ok expression fun identifier hidentifier =>
      (Statement.occurs_of_accesses haccessed expression hmem identifier hidentifier).choose_spec
    rw [htext] at herror
    cases herror
  | redeclared hdeclared => exact (hprepared.fresh.2 _ List.mem_cons_self hdeclared).elim
  | opening _ hstart => exact (start_of_declared List.mem_cons_self hstart).elim
  | @closing _ mark condition body state between _ _ hbody hend =>
    exfalso
    have hcarries := carries_statements body (JumpsTo.append.1 hprepared.jumps).1 hbody
    refine endLoop_of_declared ?_ hend
    intro label hlabel
    exact (hcarries.declares label.2).2 (.inl (hprepared.anchored.declared label hlabel))
  | loop hstrays => exact hstrays
  | @branches arrival? mark condition yes no state yesLast noLast _ _ _ hyes hno herror =>
    exfalso
    have hjoins : Joins definitions targets ⟨arrival?, .ifElse mark condition yes no, state⟩ :=
      joins _
    have hsame := hjoins.branches mark condition yes no _ _ _ _ rfl hyes hno
    rw [hsame, (Tracker.Alike.refl _).checkCompatible_iff.2 rfl] at herror
    cases herror
  | @cases arrival? mark earlier later body state before last _ first _ _ hearlier hbody herror =>
    exfalso
    have hjoins : Joins definitions targets
        ⟨arrival?, .either mark (earlier ++ body :: later), state⟩ := joins _
    have hsame := hjoins.cases mark earlier body later _ _ _ _ _ rfl hearlier hbody
    rw [hsame, (Tracker.Alike.refl _).checkCompatible_iff.2 rfl] at herror
    cases herror
  | macroCall =>
    obtain ⟨_, _, haccessed⟩ :=
      Statement.under_all (AccessTrace.all_append.1 hprepared.accessed).1
    exact (AccessTrace.not_all_halt haccessed).elim
  | binding hmem hvalue =>
    exfalso
    have hvalued := (List.forall_mem_cons.1 hprepared.valued.1).1 _ hmem
    rw [hvalue] at hvalued
    cases hvalued
  | retry hlabel =>
    exfalso
    have hsome := (hprepared.labels rfl).1
    rw [hlabel] at hsome
    cases hsome

/-- Where lowering of prepared statements fails, it is at a loop that strays. -/
theorem strays_of_error {arrival? : Option Arrival} {statements : List Statement}
    {problem : Diagnostic}
    (hprepared : Prepared definitions names (arrival?.map (·.label)) statements state)
    (h : noteStatements definitions targets (arrival?.map (·.label)) statements state =
      .error problem) :
    ∃ visit, Visits definitions targets arrival? statements state visit ∧
      Strays definitions targets visit problem := by
  obtain ⟨visit, hvisits, hfault⟩ := fault_of_error arrival? statements h
  obtain ⟨rest, hvisit⟩ := prepared_of_visits hvisits hprepared
  exact ⟨visit, hvisits, strays_of_fault hfault hvisit⟩

/-- What becomes of a loop whose parts are lowered, is up to the trackers. -/
theorem noteStatement_whileDo {label? : Option Label} (mark : Mark) {condition : Expression}
    {body : List Statement} {text : String} {inner back : NotedCode} {between : Progress}
    (htext : condition.toGo definitions = .ok text)
    (hbody : noteStatements definitions targets label? body state = .ok (inner, between))
    (hback : Noting.endLoop state.tracker.label between = .ok (back, after)) :
    noteStatement definitions targets label? (.whileDo mark condition body) state =
      match after.tracker.checkCompatible state.tracker with
      | .ok () =>
        .ok ([.loop ([.leaf (.remark ⟨state.tracker.openGroup, label?, .evaluates [condition]⟩)] ++
          ([.branch ("!" ++ text) [.line "break"] []] ++ (inner ++ back)))], after)
      | .error problem => .error problem := by
  have htexts : Noting.attempt (condition.toGo definitions) state = .ok (text, state) := by
    rw [htext]
    rfl
  have hparts : (Noting.remark label? (.evaluates [condition]) ++
      (Noting.emit (.branch ("!" ++ text) [.line "break"] []) ++
        (noteStatements definitions targets label? body ++
          Noting.endLoop state.tracker.label))) state =
      .ok ([.leaf (.remark ⟨state.tracker.openGroup, label?, .evaluates [condition]⟩)] ++
        ([.branch ("!" ++ text) [.line "break"] []] ++ (inner ++ back)), after) := by
    simp only [Noting.append_eq, Noting.bind_apply, Noting.pure_apply, Noting.remark, Noting.emit,
      hbody, hback]
  simp only [noteStatement, Noting.bind_apply, htexts, Noting.tracker, hparts]
  cases after.tracker.checkCompatible state.tracker <;> rfl

/-- A loop that strays fails when it is lowered, with any code made before it. -/
theorem Strays.lower {visit : Visit} {problem : Diagnostic}
    (h : Strays definitions targets visit problem) {lowering : Lowering}
    (hstate : lowering.progress = visit.state) :
    ∃ left, lowerStatement definitions targets visit.statement lowering = .error problem left := by
  obtain ⟨mark, condition, body, text, inner, between, back, after, hstatement, htext, hbody, hback,
    hcheck⟩ := h
  have hnoted : noteStatement definitions targets visit.label? visit.statement lowering.progress =
      .error problem := by
    rw [hstatement, hstate, noteStatement_whileDo mark htext hbody hback, hcheck]
  exact (writes_statement definitions targets visit.label? visit.statement).of_error hnoted

end Prepared

end Go

end PlusCalGo
