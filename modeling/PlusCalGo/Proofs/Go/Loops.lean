import PlusCalGo.Proofs.Go.Faults

/-!
# Ends of loops

The end of a loop begins the step of the loop's label again. It goes back to the tracker of the
condition, unless the body has come back to the lock group of the loop under another label: the
group is open then, so the step of that label goes on, and the loop is refused.
-/

namespace PlusCalGo

namespace Go

/-- The group of a loop is open after its body, under another label. -/
def Tracker.Relabels (entry last : Tracker) : Prop :=
  ∃ group, entry.openGroup = some group ∧ last.openGroup = some group ∧ last.label ≠ entry.label

/-- Two labels are told apart. -/
inductive Tracker.Disagrees (first second : Tracker) : Diagnostic → Prop
  | uids : first.labelUid ≠ second.labelUid →
    Disagrees first second (.of (.otherLabel first.labelName second.labelName))
  | names : first.labelUid = second.labelUid → first.labelName ≠ second.labelName →
    Disagrees first second
      (.of (.otherLabelName first.labelUid first.labelName second.labelName))

/-- What comes of a loop after its body is lowered: its end puts the tracker back, or the body has
changed the label and the loop is refused. -/
structure LoopEnds (definitions : Definitions) (targets : List String) (visit : Visit)
    (between : Progress) : Prop where
  ended : ∃ back after, Noting.endLoop visit.state.tracker.label between = .ok (back, after) ∧
    after.tracker.openGroup = visit.state.tracker.openGroup ∧
    (after.tracker = visit.state.tracker ↔ ¬visit.state.tracker.Relabels between.tracker)
  reconciled : ¬visit.state.tracker.Relabels between.tracker → ∀ lowering : Lowering,
    lowering.progress = visit.state → ∃ done,
      lowerStatement definitions targets visit.statement lowering = .ok () done ∧
        done.progress.tracker = visit.state.tracker
  refused : visit.state.tracker.Relabels between.tracker → ∃ problem,
    between.tracker.Disagrees visit.state.tracker problem ∧ ∀ lowering : Lowering,
      lowering.progress = visit.state → ∃ left,
        lowerStatement definitions targets visit.statement lowering = .error problem left

section Loops

variable {definitions : Definitions} {targets names : List String} {between : Progress}

theorem Tracker.disagrees_of_label {first second : Tracker} (halike : first.Alike second)
    (hopen : first.openGroup = second.openGroup) (hlabel : first.label ≠ second.label) :
    ∃ problem, first.checkCompatible second = .error problem ∧ first.Disagrees second problem := by
  obtain ⟨hgroups, hstrategy, hprocess⟩ := halike
  rw [checkCompatible, if_neg (by simp [hgroups]), if_neg (by simp [hstrategy]),
    if_neg (by simp [hprocess]), if_neg (not_not_intro hopen)]
  by_cases huid : first.labelUid = second.labelUid
  · have hname : first.labelName ≠ second.labelName := by
      intro hname
      apply hlabel
      simp only [labelUid, labelName] at huid hname
      cases hfirst : first.label <;> cases hsecond : second.label <;>
        simp_all [Prod.ext_iff]
    exact ⟨_, by rw [if_neg (not_not_intro huid), if_pos hname], .names huid hname⟩
  · exact ⟨_, by rw [if_pos huid], .uids huid⟩

/-- The end of a loop does nothing where the body has the group of the loop's label open, and begins
the step of the label otherwise. -/
theorem endLoop_of_settled {entry : Tracker} (hlabel : entry.label.isSome = true)
    (hsettled : entry.Settled) (halike : between.tracker.Alike entry)
    (hdeclared : ∀ label ∈ entry.label, label.2 ∈ between.labels) :
    ∃ back after, Noting.endLoop entry.label between = .ok (back, after) ∧
      (entry.Relabels between.tracker ∧ after = between ∨
        ¬entry.Relabels between.tracker ∧ after.tracker = entry) := by
  obtain ⟨⟨uid, name⟩, hlabel⟩ := Option.isSome_iff_exists.1 hlabel
  have hopen : entry.openGroup = between.tracker.groups.value.groupOf? uid := by
    rw [hsettled, hlabel, Option.bind_some, halike.groups]
  by_cases hcontinues : between.tracker.continues uid = true
  · refine ⟨[], between, by rw [hlabel, Noting.endLoop, Noting.start, if_pos hcontinues], ?_⟩
    obtain ⟨group, hlast, hgroup⟩ := Tracker.continues_iff.1 hcontinues
    by_cases hsame : between.tracker.label = entry.label
    · have hnot : ¬entry.Relabels between.tracker := by
        intro hrelabels
        obtain ⟨_, _, _, hother⟩ := hrelabels
        exact hother hsame
      exact .inr ⟨hnot, halike.ext (hlast.trans (hopen.trans hgroup).symm) hsame⟩
    · exact .inl ⟨⟨group, hopen.trans hgroup, hlast, hsame⟩, rfl⟩
  · have hname : name ∈ between.labels := hdeclared _ hlabel
    have hnot : ¬entry.Relabels between.tracker := by
      intro hrelabels
      obtain ⟨group, hentry, hlast, _⟩ := hrelabels
      exact hcontinues (Tracker.continues_iff.2 ⟨group, hlast, hopen.symm.trans hentry⟩)
    refine ⟨.ofCalls (between.tracker.closing ++ between.tracker.opening uid),
      { between with tracker := between.tracker.entered uid name },
      by rw [hlabel, Noting.endLoop, Noting.start, if_neg hcontinues, if_pos hname],
      .inr ⟨hnot, ?_⟩⟩
    have hentered : (between.tracker.entered uid name).Alike entry :=
      ⟨halike.groups, halike.strategy, halike.process⟩
    exact hentered.ext hopen.symm hlabel.symm

/-- A body that comes back to the group of its loop does so at one of its own labels. -/
theorem inner_of_relabels {label? : Option Label} {body : List Statement} {state : Progress}
    {inner : NotedCode} (hanchored : state.Anchored names)
    (hjumps : JumpsTo names (Statement.listJumpTargets body))
    (hbody : noteStatements definitions targets label? body state = .ok (inner, between))
    (hrelabels : state.tracker.Relabels between.tracker) :
    ∃ label ∈ Statement.listInnerLabels body,
      state.tracker.groups.value.groupOf? label.uid = state.tracker.openGroup := by
  obtain ⟨group, hopen, hbetween, hother⟩ := hrelabels
  have hcarries := carries_statements body hjumps hbody
  have hsettled := (hcarries.anchored hanchored).settled
  obtain ⟨last, hlast⟩ := Option.isSome_iff_exists.1
    (hsettled.label_of_isOpen (by rw [Tracker.isOpen, hbetween]; rfl))
  rcases hcarries.label last hlast with hsame | ⟨label, hmem, rfl⟩
  · exact (hother (hlast.trans hsame.symm)).elim
  · refine ⟨label, hmem, ?_⟩
    rw [hsettled, hlast, Option.bind_some, hcarries.alike.groups] at hbetween
    rw [hbetween, hopen]

/-- Every loop whose body can be lowered ends so. -/
theorem Prepared.loopEnds {visit : Visit} {mark : Mark} {condition : Expression}
    {body rest : List Statement} {inner : NotedCode}
    (h : Prepared definitions names visit.label? (visit.statement :: rest) visit.state)
    (hstatement : visit.statement = .whileDo mark condition body)
    (hbody : noteStatements definitions targets visit.label? body visit.state =
      .ok (inner, between)) : LoopEnds definitions targets visit between := by
  rw [hstatement] at h
  have hcarries := carries_statements body (JumpsTo.append.1 h.jumps).1 hbody
  obtain ⟨text, htext⟩ : ∃ text, condition.toGo definitions = .ok text := by
    apply Expression.toGo_ok
    intro identifier hidentifier
    have haccessed := (AccessTrace.all_append.1 h.accessed).1
    exact (Statement.occurs_of_accesses haccessed condition (List.mem_singleton_self condition)
      identifier hidentifier).choose_spec
  obtain ⟨back, after, hend, hcases⟩ := endLoop_of_settled (h.labels rfl).1 h.anchored.settled
    hcarries.alike fun label hlabel =>
      (hcarries.declares label.2).2 (.inl (h.anchored.declared label hlabel))
  have hafter : after.tracker.Alike visit.state.tracker := (hcarries.endLoop hend).alike
  -- The label alone tells the two ends apart.
  have hdiffer (hrelabels : visit.state.tracker.Relabels between.tracker) :
      after = between ∧ after.tracker ≠ visit.state.tracker := by
    have ⟨_, _, _, hother⟩ := hrelabels
    rcases hcases with ⟨_, rfl⟩ | ⟨hnot, _⟩
    · exact ⟨rfl, fun hsame => hother (congrArg Tracker.label hsame)⟩
    · exact (hnot hrelabels).elim
  have hreturns (hnot : ¬visit.state.tracker.Relabels between.tracker) :
      after.tracker = visit.state.tracker := by
    rcases hcases with ⟨hrelabels, _⟩ | ⟨_, hsame⟩
    · exact (hnot hrelabels).elim
    · exact hsame
  have hopen : after.tracker.openGroup = visit.state.tracker.openGroup := by
    rcases hcases with ⟨⟨group, hentry, hlast, _⟩, rfl⟩ | ⟨_, hsame⟩
    · rw [hentry, hlast]
    · rw [hsame]
  refine ⟨⟨back, after, hend, hopen, fun hsame hrelabels => (hdiffer hrelabels).2 hsame, hreturns⟩,
    ?_, ?_⟩
  · intro hnot lowering hlowering
    have hnoted := noteStatement_whileDo mark htext hbody hend
    rw [hreturns hnot, (Tracker.Alike.refl _).checkCompatible_iff.2 rfl, ← hstatement,
      ← hlowering] at hnoted
    exact ⟨_, (writes_statement definitions targets visit.label? visit.statement).of_ok hnoted,
      hreturns hnot⟩
  · intro hrelabels
    obtain ⟨rfl, hother⟩ := hdiffer hrelabels
    obtain ⟨problem, hcheck, hdisagrees⟩ :=
      Tracker.disagrees_of_label hafter hopen fun hlabel => hother (hafter.ext hopen hlabel)
    have hstrays : Strays definitions targets visit problem :=
      ⟨mark, condition, body, text, inner, after, back, after, hstatement, htext, hbody, hend,
        hcheck⟩
    exact ⟨problem, hdisagrees, fun lowering hlowering => hstrays.lower hlowering⟩

end Loops

end Go

open Go

variable {algorithm : Algorithm} {definitions : Definitions} {atomicity : Atomicity}

/-- A loop whose body is lowered ends with the lock group it began with, and with the same tracker
unless its body has come back to the group under another label. Then no label is put back and the
loop is refused, which needs a label of that group in the body. -/
theorem Algorithm.loops_end (hresolve : algorithm.resolve = .ok definitions)
    (hinfer : algorithm.inferAtomicity definitions = .ok atomicity) {source : Source}
    (hsource : source ∈ algorithm.sources) {context : FunctionContext}
    (hdefinitions : context.definitions = definitions) (hgroups : context.groups = atomicity.groups)
    {imports : Imports} {visit : Visit} (hvisits : context.Visits imports source visit)
    {mark : Mark} {condition : Expression} {body : List Statement}
    (hstatement : visit.statement = .whileDo mark condition body) {inner : NotedCode}
    {between : Progress}
    (hbody : noteStatements context.definitions (Statement.listJumpTargets source.body)
      visit.label? body visit.state = .ok (inner, between)) :
    LoopEnds context.definitions (Statement.listJumpTargets source.body) visit between ∧
      ((∀ label ∈ Statement.listInnerLabels body, ∀ group,
        atomicity.groups.groupOf? label.uid = some group →
          visit.state.tracker.openGroup ≠ some group) →
        ¬visit.state.tracker.Relabels between.tracker) := by
  obtain ⟨names, hnames, hprepared⟩ :=
    prepares_of_source hresolve hinfer hsource hdefinitions imports
  obtain ⟨rest, hvisit⟩ := prepared_of_visits hvisits hprepared
  refine ⟨hvisit.loopEnds hstatement hbody, ?_⟩
  intro hinner hrelabels
  rw [hstatement] at hvisit
  have hjumps := (JumpsTo.append.1 hvisit.jumps).1
  obtain ⟨label, hmem, hgroup⟩ := inner_of_relabels hvisit.anchored hjumps hbody hrelabels
  obtain ⟨group, hopen, _⟩ := hrelabels
  have hsame : visit.state.tracker.groups.value = atomicity.groups := by
    obtain ⟨_, _, hcarries⟩ := carries_of_visits hvisits (.self _)
    rw [hcarries.alike.groups, ← hgroups]
    rfl
  rw [hsame, hopen] at hgroup
  exact hinner label hmem group hgroup hopen

private def strayingContext : FunctionContext :=
  ⟨strayingDefinitions, strayingAtomicity.groups, .inProcess, []⟩

private def strayingCondition : Expression :=
  .binary ⟨13⟩ .lessThan (.identifier ⟨14⟩ "x") (.number ⟨15⟩ 1)

private def strayingBody : List Statement :=
  [.labeled ⟨⟨20⟩, .unknown⟩ ⟨⟨21⟩, "b"⟩ [.skip ⟨⟨22⟩, .unknown⟩],
    .labeled ⟨⟨30⟩, .unknown⟩ ⟨⟨31⟩, "c"⟩
      [.assign ⟨⟨32⟩, .unknown⟩ [⟨.identifier ⟨33⟩ "x", .number ⟨34⟩ 1⟩]]]

private def strayingSource : Source :=
  ⟨"P", ⟨2⟩, [], [.labeled ⟨⟨10⟩, .unknown⟩ ⟨⟨11⟩, "a"⟩
    [.whileDo ⟨⟨12⟩, .unknown⟩ strayingCondition strayingBody]]⟩

/-- The tracker in the step of a label of the group. -/
private def strayingTracker (label : Uid × String) : Tracker :=
  ⟨⟨0, strayingAtomicity.groups⟩, ⟨0, .inProcess⟩, ⟨2⟩, some ⟨0⟩, some label⟩

private def strayingLoop : Visit :=
  ⟨some ⟨⟨⟨11⟩, "a"⟩, .new ⟨0, strayingAtomicity.groups⟩ ⟨0, .inProcess⟩ ⟨2⟩⟩,
    .whileDo ⟨⟨12⟩, .unknown⟩ strayingCondition strayingBody,
    ⟨strayingTracker (⟨11⟩, "a"), ["a"], [], 0, .none⟩⟩

private def strayingEnd : Progress :=
  ⟨strayingTracker (⟨31⟩, "c"), ["c", "b", "a"], [], 0, .none⟩

theorem Algorithm.loops_end_straying :
    LoopEnds strayingDefinitions [] strayingLoop strayingEnd ∧
      strayingLoop.state.tracker.Relabels strayingEnd.tracker := by
  have hresolve : straying.resolve = .ok strayingDefinitions := by cbv
  have hinfer : straying.inferAtomicity strayingDefinitions = .ok strayingAtomicity := by cbv
  have hsource : strayingSource ∈ straying.sources := List.mem_cons_self
  have hvisits : strayingContext.Visits .none strayingSource strayingLoop :=
    .labeled rfl List.not_mem_nil rfl .here
  have hdefinitions : strayingContext.definitions = strayingDefinitions := rfl
  have hgroups : strayingContext.groups = strayingAtomicity.groups := rfl
  have hbody : ∃ inner, noteStatements strayingDefinitions [] strayingLoop.label? strayingBody
      strayingLoop.state = .ok (inner, strayingEnd) := ⟨_, rfl⟩
  obtain ⟨inner, hbody⟩ := hbody
  have hends := Algorithm.loops_end hresolve hinfer hsource hdefinitions hgroups hvisits rfl hbody
  exact ⟨hends.1, ⟨0⟩, rfl, rfl, by decide⟩

/-- The loop that strays is resolved and has its groups, yet it has no program. -/
theorem Algorithm.loops_disagree :
    straying.resolve = .ok strayingDefinitions ∧
      straying.inferAtomicity strayingDefinitions = .ok strayingAtomicity ∧
      straying.toGo strayingDefinitions strayingAtomicity.groups .default =
        .error (.of (.otherLabel (some "c") (some "a"))) := by
  refine ⟨?_, ?_, ?_⟩ <;> cbv

end PlusCalGo
