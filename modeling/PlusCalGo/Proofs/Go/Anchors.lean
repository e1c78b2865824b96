import PlusCalGo.Proofs.Go.Success
import PlusCalGo.Proofs.Resolution.Labels
import PlusCalGo.Proofs.Resolution.Placement

/-!
# States along a body

What lowering carries from one state to the next: the tracker keeps to its groups and has the group
of its label open, the label it would retry is declared, and labels are declared where they stand.
Statements that stay in their step leave the tracker as it is.
-/

namespace PlusCalGo

namespace Go

/-- The trackers follow one body under the same groups and the same strategy. -/
structure Tracker.Alike (first second : Tracker) : Prop where
  groups : first.groups = second.groups
  strategy : first.strategy = second.strategy
  process : first.process = second.process

/-- The group of the label is open, if it has one. -/
def Tracker.Settled (tracker : Tracker) : Prop :=
  tracker.openGroup = tracker.label.bind fun label => tracker.groups.value.groupOf? label.1

/-- The tracker is settled at a declared label, and jumps go to declared labels or to some names. -/
structure Progress.Anchored (names : List String) (state : Progress) : Prop where
  settled : state.tracker.Settled
  declared : ∀ label ∈ state.tracker.label, label.2 ∈ state.labels
  targets : ∀ name ∈ state.targets, name ∈ names ∨ name ∈ state.labels

/-- Lowering code with these labels in it leads from a state to another one. -/
structure Carries (names : List String) (labels : List Label) (before after : Progress) :
    Prop where
  alike : after.tracker.Alike before.tracker
  label : ∀ entry ∈ after.tracker.label,
    entry ∈ before.tracker.label ∨ ∃ label ∈ labels, entry = (label.uid, label.name)
  declares : ∀ name,
    name ∈ after.labels ↔ name ∈ before.labels ∨ ∃ label ∈ labels, label.name = name
  anchored : before.Anchored names → after.Anchored names

section Carries

variable {names : List String} {labels more : List Label} {before between after : Progress}
  {code : NotedCode}

namespace Tracker

theorem Alike.refl (tracker : Tracker) : tracker.Alike tracker := ⟨rfl, rfl, rfl⟩

theorem Alike.trans {first second third : Tracker} (hfirst : first.Alike second)
    (hsecond : second.Alike third) : first.Alike third :=
  ⟨hfirst.groups.trans hsecond.groups, hfirst.strategy.trans hsecond.strategy,
    hfirst.process.trans hsecond.process⟩

theorem Alike.symm {first second : Tracker} (h : first.Alike second) : second.Alike first :=
  ⟨h.groups.symm, h.strategy.symm, h.process.symm⟩

theorem Alike.ext {first second : Tracker} (h : first.Alike second)
    (hgroup : first.openGroup = second.openGroup) (hlabel : first.label = second.label) :
    first = second := by
  obtain ⟨hgroups, hstrategy, hprocess⟩ := h
  cases first
  cases second
  simp_all

/-- Trackers of one body are compatible exactly if they are equal. -/
theorem Alike.checkCompatible_iff {first second : Tracker} (h : first.Alike second) :
    first.checkCompatible second = .ok () ↔ first = second := by
  constructor
  · intro hcheck
    obtain ⟨hgroup, hlabel⟩ := checkCompatible_ok hcheck
    exact h.ext hgroup hlabel
  · intro hsame
    simp [hsame, checkCompatible]

theorem alike_idle (tracker : Tracker) : tracker.idle.Alike tracker := ⟨rfl, rfl, rfl⟩

/-- Where a group is open, there is a label to retry. -/
theorem Settled.label_of_isOpen {tracker : Tracker} (h : tracker.Settled)
    (hopen : tracker.isOpen = true) : tracker.label.isSome = true := by
  rw [isOpen, h] at hopen
  cases hlabel : tracker.label with
  | none => simp [hlabel] at hopen
  | some label => rfl

theorem continues_iff {tracker : Tracker} {label : Uid} :
    tracker.continues label = true ↔ ∃ group, tracker.openGroup = some group ∧
      tracker.groups.value.groupOf? label = some group := by
  rw [continues, isOpen, Bool.and_eq_true, decide_eq_true_iff, Option.isSome_iff_exists]
  constructor
  · intro h
    rcases h with ⟨⟨group, hopen⟩, hsame⟩
    exact ⟨group, hopen, hsame.symm.trans hopen⟩
  · intro h
    rcases h with ⟨group, hopen, hgroup⟩
    exact ⟨⟨group, hopen⟩, hopen.trans hgroup.symm⟩

end Tracker

namespace Carries

theorem refl (state : Progress) : Carries names [] state state where
  alike := .refl _
  label := fun _ h => .inl h
  declares := by simp
  anchored := id

theorem append (hfirst : Carries names labels before between)
    (hsecond : Carries names more between after) : Carries names (labels ++ more) before after where
  alike := hsecond.alike.trans hfirst.alike
  label := by
    intro entry hentry
    rcases hsecond.label entry hentry with hentry | ⟨label, hmem, hentry⟩
    · rcases hfirst.label entry hentry with hentry | ⟨label, hmem, hentry⟩
      · exact .inl hentry
      · exact .inr ⟨label, List.mem_append_left more hmem, hentry⟩
    · exact .inr ⟨label, List.mem_append_right labels hmem, hentry⟩
  declares := by
    intro name
    simp only [hsecond.declares, hfirst.declares, List.mem_append, or_and_right, exists_or,
      or_assoc]
  anchored := hsecond.anchored ∘ hfirst.anchored

/-- The numbers of temporaries and the imports do not count. -/
theorem congr (h : Carries names labels before after) {other : Progress}
    (htracker : other.tracker = after.tracker) (hlabels : other.labels = after.labels)
    (htargets : other.targets = after.targets) : Carries names labels before other where
  alike := htracker ▸ h.alike
  label := htracker ▸ h.label
  declares := hlabels ▸ h.declares
  anchored := by
    intro hanchored
    obtain ⟨hsettled, hdeclared, htarget⟩ := h.anchored hanchored
    exact ⟨htracker ▸ hsettled, htracker ▸ hlabels ▸ hdeclared, htargets ▸ hlabels ▸ htarget⟩

/-- The tracker may be taken over from a state that fewer labels lead to. -/
theorem adopt (h : Carries names labels before after) {other : Progress}
    (hother : Carries names more before other) (hmore : ∀ label ∈ more, label ∈ labels) :
    Carries names labels before { after with tracker := other.tracker } where
  alike := hother.alike
  label := by
    intro entry hentry
    rcases hother.label entry hentry with hentry | ⟨label, hmem, hentry⟩
    · exact .inl hentry
    · exact .inr ⟨label, hmore label hmem, hentry⟩
  declares := h.declares
  anchored := by
    intro hanchored
    obtain ⟨hsettled, hdeclared, _⟩ := hother.anchored hanchored
    refine ⟨hsettled, ?_, (h.anchored hanchored).targets⟩
    intro entry hentry
    rcases (hother.declares entry.2).1 (hdeclared entry hentry) with hname | ⟨label, hmem, hname⟩
    · exact (h.declares entry.2).2 (.inl hname)
    · exact (h.declares entry.2).2 (.inr ⟨label, hmore label hmem, hname⟩)

/-- The tracker may be put back. -/
theorem putBack (h : Carries names labels before after) :
    Carries names labels before { after with tracker := before.tracker } :=
  h.adopt (refl before) (by simp)

theorem idle (state : Progress) :
    Carries names [] state { state with tracker := state.tracker.idle } where
  alike := state.tracker.alike_idle
  label := by simp [Tracker.idle]
  declares := by simp
  anchored := fun h => ⟨rfl, by simp [Tracker.idle], h.targets⟩

/-- A jump goes to a declared label or to one of the names. -/
theorem jump {name : String} (hname : before.Anchored names → name ∈ names ∨ name ∈ before.labels) :
    Carries names [] before { before with targets := name :: before.targets } where
  alike := .refl _
  label := fun _ h => .inl h
  declares := by simp
  anchored := by
    intro h
    refine ⟨h.settled, h.declared, ?_⟩
    intro other hother
    rcases List.mem_cons.1 hother with rfl | hother
    · exact hname h
    · exact h.targets other hother

/-- Where jumps go to a label, the section before it is closed. -/
theorem reached {label : Label} {targets : List String}
    (h : (if label.name ∈ targets then Noting.close else pure []) before = .ok (code, after)) :
    Carries names [] before after := by
  split at h
  · rw [(Noting.close_ok.1 h).2]
    exact idle before
  · rw [(Noting.pure_ok.1 h).2]
    exact refl before

/-- A label is declared, and its step is begun. -/
theorem arrive {label : Label}
    (h : Noting.start label.uid label.name
      { before with labels := label.name :: before.labels } = .ok (code, after)) :
    Carries names [label] before after := by
  have hdeclared : ∀ name, name ∈ label.name :: before.labels ↔
      name ∈ before.labels ∨ ∃ other ∈ [label], other.name = name := by
    intro name
    simp [or_comm, eq_comm]
  rcases Noting.start_ok h with ⟨_, _, rfl⟩ | ⟨_, _, _, rfl⟩
  · refine ⟨.refl _, fun _ h => .inl h, hdeclared, ?_⟩
    intro hanchored
    refine ⟨hanchored.settled, ?_, ?_⟩
    · intro entry hentry
      exact List.mem_cons_of_mem _ (hanchored.declared entry hentry)
    · intro name hname
      exact (hanchored.targets name hname).imp_right (List.mem_cons_of_mem _)
  · refine ⟨⟨rfl, rfl, rfl⟩, ?_, hdeclared, ?_⟩
    · intro entry hentry
      exact .inr ⟨label, List.mem_singleton_self label, (Option.some.inj hentry).symm⟩
    · intro hanchored
      refine ⟨rfl, ?_, ?_⟩
      · intro entry hentry
        rw [← Option.some.inj hentry]
        exact List.mem_cons_self
      · intro name hname
        exact (hanchored.targets name hname).imp_right (List.mem_cons_of_mem _)

/-- The end of a loop goes back to the label of its beginning. -/
theorem endLoop (h : Carries names labels before between)
    (hend : Noting.endLoop before.tracker.label between = .ok (code, after)) :
    Carries names labels before after := by
  cases hlabel : before.tracker.label with
  | none =>
    rw [hlabel] at hend
    obtain ⟨rfl, rfl⟩ := Noting.close_ok.1 hend
    exact List.append_nil labels ▸ h.append (idle between)
  | some entry =>
    obtain ⟨uid, name⟩ := entry
    rw [hlabel] at hend
    rcases Noting.start_ok hend with ⟨_, _, rfl⟩ | ⟨_, hname, _, rfl⟩
    · exact h
    · refine ⟨⟨h.alike.groups, h.alike.strategy, h.alike.process⟩, ?_, h.declares, ?_⟩
      · intro entry hentry
        exact .inl (hlabel.trans hentry)
      · intro hanchored
        refine ⟨rfl, ?_, (h.anchored hanchored).targets⟩
        intro entry hentry
        rw [← Option.some.inj hentry]
        exact hname

theorem ofCloseIf {noting : Noting NotedCode} {closeSection : Bool}
    (h : (noting ++ if closeSection then Noting.close else pure []) before = .ok (code, after))
    (hbody : ∀ code after, noting before = .ok (code, after) → Carries names labels before after) :
    Carries names labels before after := by
  obtain ⟨front, last, hfront, ⟨_, rfl, rfl⟩ | ⟨_, rfl, rfl⟩⟩ := Noting.closeIf_ok h
  · exact hbody _ _ hfront
  · exact List.append_nil labels ▸ (hbody _ _ hfront).append (idle last)

end Carries

end Carries

/-! ## Statements -/

section Statements

variable {definitions : Definitions} {targets names : List String}

mutual

theorem carries_statement {label? : Option Label} (statement : Statement)
    {before after : Progress} {code : NotedCode}
    (hjumps : JumpsTo names statement.jumpTargets)
    (h : noteStatement definitions targets label? statement before = .ok (code, after)) :
    Carries names statement.innerLabels before after := by
  cases statement with
  | labeled mark label body =>
    obtain ⟨front, reached, opening, started, inner, hfront, _, hstart, hinner, _⟩ :=
      noteStatement_labeled_ok h
    have hreached : Carries names [] before reached := .reached hfront
    exact (hreached.append (.arrive hstart)).append (carries_statements body hjumps hinner)
  | whileDo mark condition body =>
    obtain ⟨text, inner, between, back, _, hinner, hback, _, _⟩ := noteStatement_whileDo_ok h
    exact (carries_statements body hjumps hinner).endLoop hback
  | ifElse mark condition yes no =>
    obtain ⟨text, yesCode, yesLast, noCode, noLast, _, hyes, hno, _, rfl, _⟩ :=
      noteStatement_ifElse_ok h
    obtain ⟨hyesJumps, hnoJumps⟩ := JumpsTo.append.1 hjumps
    have hyes := Carries.ofCloseIf hyes fun _ _ => carries_statements yes hyesJumps
    have hno := Carries.ofCloseIf hno fun _ _ => carries_statements no hnoJumps
    exact (hyes.putBack.append hno).adopt hyes fun _ => List.mem_append_left _
  | either mark cases =>
    obtain ⟨codes, first, last, hcases, ⟨_, rfl⟩, _⟩ := noteStatement_either_ok h
    obtain ⟨htracker, hlast⟩ :=
      carries_cases cases (.refl before) rfl (by simp) hjumps hcases
    rw [← htracker] at hlast
    exact hlast.congr rfl rfl rfl
  | assign mark pairs =>
    obtain ⟨⟨_, rfl⟩, _⟩ := noteStatement_assign_ok h
    exact (Carries.refl before).congr rfl rfl rfl
  | leave mark =>
    obtain ⟨rfl, _⟩ := noteStatement_leave_ok h
    exact .idle before
  | skip mark =>
    obtain ⟨rfl, _⟩ := noteStatement_skip_ok h
    exact .refl after
  | call mark target arguments =>
    obtain ⟨text, _, rfl, _⟩ := noteStatement_call_ok h
    exact .idle before
  | macroCall mark target arguments => cases h
  | withDo mark bindings body =>
    obtain ⟨front, inner, _, _, hinner, _⟩ := noteStatement_withDo_ok h
    exact carries_statements body hjumps hinner
  | print mark value =>
    obtain ⟨⟨_, rfl⟩, _⟩ := noteStatement_print_ok h
    exact (Carries.refl before).congr rfl rfl rfl
  | assert mark value =>
    obtain ⟨condition, text, _, rfl, _⟩ := noteStatement_assert_ok h
    exact .refl after
  | await mark value =>
    obtain ⟨text, label, name, _, hlabel, rfl, _⟩ := noteStatement_await_ok h
    exact .jump fun hanchored => .inr (hanchored.declared _ hlabel)
  | goto mark target =>
    simp only [noteStatement, Noting.append_ok, Noting.close_ok] at h
    obtain ⟨_, _, _, ⟨_, rfl⟩, hjump, _⟩ := h
    split at hjump
    · rw [(Noting.emit_ok.1 hjump).2]
      exact .idle before
    · rename_i hdone
      rw [(Noting.goTo_ok.1 hjump).2]
      have hname : target ∈ names := hjumps target (List.mem_singleton_self target) hdone
      exact (Carries.idle before).append (.jump fun _ => .inl hname)

theorem carries_statements {label? : Option Label} (statements : List Statement)
    {before after : Progress} {code : NotedCode}
    (hjumps : JumpsTo names (Statement.listJumpTargets statements))
    (h : noteStatements definitions targets label? statements before = .ok (code, after)) :
    Carries names (Statement.listInnerLabels statements) before after := by
  cases statements with
  | nil =>
    obtain ⟨_, rfl⟩ := Noting.pure_ok.1 h
    exact .refl after
  | cons statement rest =>
    obtain ⟨hstatementJumps, hrestJumps⟩ := JumpsTo.append.1 hjumps
    obtain ⟨front, between, back, hfront, hback, _⟩ := Noting.append_ok.1 h
    exact (carries_statement statement hstatementJumps hfront).append
      (carries_statements rest hrestJumps hback)

/-- The cases that come after some others, from the state before all of them on. -/
theorem carries_cases {label? : Option Label} {closeSection : Bool} {first result : Option Tracker}
    (cases : List (List Statement)) {earlier : List Label} {origin before after : Progress}
    {codes : List NotedCode} (hearlier : Carries names earlier origin before)
    (hbefore : before.tracker = origin.tracker)
    (hfirst : ∀ tracker ∈ first, Carries names earlier origin { before with tracker := tracker })
    (hjumps : JumpsTo names (Statement.casesJumpTargets cases))
    (h : noteCases definitions targets label? closeSection first cases before =
      .ok ((codes, result), after)) :
    after.tracker = origin.tracker ∧
      Carries names (earlier ++ Statement.casesInnerLabels cases) origin
        { after with tracker := result.getD origin.tracker } := by
  cases cases with
  | nil =>
    obtain ⟨heq, rfl⟩ := Noting.pure_ok.1 h
    injection heq with _ hresult
    subst hresult
    refine ⟨hbefore, ?_⟩
    rw [Statement.casesInnerLabels, List.append_nil]
    cases result with
    | none => exact hearlier.putBack
    | some tracker => exact hfirst tracker rfl
  | cons body rest =>
    obtain ⟨hbodyJumps, hrestJumps⟩ := JumpsTo.append.1 hjumps
    obtain ⟨bodyCode, last, others, hbody, _, hrest, _⟩ := noteCases_cons_ok h
    have hlast := hearlier.append
      (Carries.ofCloseIf hbody fun _ _ => carries_statements body hbodyJumps)
    have hnext : ∀ tracker ∈ some (first.getD last.tracker), Carries names
        (earlier ++ Statement.listInnerLabels body) origin { last with tracker := tracker } := by
      intro tracker htracker
      cases htracker
      cases first with
      | none => exact hlast
      | some tracker => exact hlast.adopt (hfirst tracker rfl) fun _ => List.mem_append_left _
    have hback : Carries names (earlier ++ Statement.listInnerLabels body) origin
        { last with tracker := before.tracker } :=
      hbefore ▸ hlast.putBack
    have hall := carries_cases rest hback hbefore hnext hrestJumps hrest
    rw [Statement.casesInnerLabels, ← List.append_assoc]
    exact hall

end

/-! ## Staying in a step -/

/-- A loop is left with the tracker it was entered with. -/
theorem tracker_of_loop {label? : Option Label} {mark : Mark} {condition : Expression}
    {body : List Statement} {before after : Progress} {code : NotedCode}
    (h : noteStatement definitions targets label? (.whileDo mark condition body) before =
      .ok (code, after)) : after.tracker = before.tracker := by
  obtain ⟨text, inner, between, back, _, hinner, hback, hcheck, _⟩ := noteStatement_whileDo_ok h
  have hcarries := (carries_statements body (.self _) hinner).endLoop hback
  exact hcarries.alike.checkCompatible_iff.1 hcheck

mutual

/-- A statement without label after which none is needed leaves the tracker as it is. -/
theorem stays_statement {label? : Option Label} (statement : Statement) {before after : Progress}
    {code : NotedCode} (hlabeled : statement.isLabeled = false)
    (hstays : statement.needsLabelAfter = false)
    (h : noteStatement definitions targets label? statement before = .ok (code, after)) :
    after.tracker = before.tracker := by
  cases statement with
  | labeled mark label body => simp [Statement.isLabeled] at hlabeled
  | whileDo mark condition body => exact tracker_of_loop h
  | ifElse mark condition yes no =>
    have hboth : (Statement.anyTransfersControl yes || Statement.anyTransfersControl no) = false :=
      hstays
    obtain ⟨text, yesCode, yesLast, noCode, noLast, _, hyes, _, _, rfl, _⟩ :=
      noteStatement_ifElse_ok h
    have hyesLast := stays_statements yes (Bool.or_eq_false_iff.1 hboth).1
      (Noting.unclosed_ok hboth hyes)
    exact hyesLast
  | either mark cases =>
    have hcases : Statement.anyCaseTransfersControl cases = false := hstays
    obtain ⟨codes, first, last, hrun, ⟨_, rfl⟩, _⟩ := noteStatement_either_ok h
    rw [hcases] at hrun
    obtain ⟨hlast, hfirst⟩ := stays_cases cases hcases rfl (by simp) hrun
    cases first with
    | none => exact hlast
    | some tracker => exact hfirst tracker rfl
  | assign mark pairs =>
    obtain ⟨⟨_, rfl⟩, _⟩ := noteStatement_assign_ok h
    rfl
  | leave mark => simp [Statement.needsLabelAfter] at hstays
  | skip mark => rw [(noteStatement_skip_ok h).1]
  | call mark target arguments => simp [Statement.needsLabelAfter] at hstays
  | macroCall mark target arguments => cases h
  | withDo mark bindings body =>
    have hbody : Statement.anyTransfersControl body = false := hstays
    obtain ⟨front, inner, _, _, hinner, _⟩ := noteStatement_withDo_ok h
    exact stays_statements body hbody hinner
  | print mark value =>
    obtain ⟨⟨_, rfl⟩, _⟩ := noteStatement_print_ok h
    rfl
  | assert mark value =>
    obtain ⟨condition, text, _, rfl, _⟩ := noteStatement_assert_ok h
    rfl
  | await mark value =>
    obtain ⟨text, label, name, _, _, rfl, _⟩ := noteStatement_await_ok h
    rfl
  | goto mark target => simp [Statement.needsLabelAfter] at hstays

theorem stays_statements {label? : Option Label} (statements : List Statement)
    {before after : Progress} {code : NotedCode}
    (hstays : Statement.anyTransfersControl statements = false)
    (h : noteStatements definitions targets label? statements before = .ok (code, after)) :
    after.tracker = before.tracker := by
  cases statements with
  | nil => rw [(Noting.pure_ok.1 h).2]
  | cons statement rest =>
    obtain ⟨hstatement, hrest⟩ := Bool.or_eq_false_iff.1 hstays
    obtain ⟨hlabeled, hneeds⟩ := Statement.stays_of_not_transfersControl hstatement
    obtain ⟨front, between, back, hfront, hback, _⟩ := Noting.append_ok.1 h
    exact (stays_statements rest hrest hback).trans
      (stays_statement statement hlabeled hneeds hfront)

theorem stays_cases {label? : Option Label} {entry : Tracker} {first result : Option Tracker}
    (cases : List (List Statement)) {before after : Progress} {codes : List NotedCode}
    (hstays : Statement.anyCaseTransfersControl cases = false) (hbefore : before.tracker = entry)
    (hfirst : ∀ tracker ∈ first, tracker = entry)
    (h : noteCases definitions targets label? false first cases before =
      .ok ((codes, result), after)) :
    after.tracker = entry ∧ ∀ tracker ∈ result, tracker = entry := by
  cases cases with
  | nil =>
    obtain ⟨heq, rfl⟩ := Noting.pure_ok.1 h
    injection heq with _ hresult
    exact ⟨hbefore, hresult ▸ hfirst⟩
  | cons body rest =>
    obtain ⟨hbodyStays, hrestStays⟩ := Bool.or_eq_false_iff.1 hstays
    obtain ⟨bodyCode, last, others, hbody, _, hrest, _⟩ := noteCases_cons_ok h
    have hbodyLast := stays_statements body hbodyStays (Noting.unclosed_ok rfl hbody)
    have hback : ({ last with tracker := before.tracker } : Progress).tracker = entry := hbefore
    refine stays_cases rest hrestStays hback ?_ hrest
    intro tracker htracker
    cases htracker
    cases first with
    | none => exact hbodyLast.trans hbefore
    | some tracker => exact hfirst tracker rfl

end

/-- A branch that is closed ends idle, and one that is not ends as it began. -/
theorem tracker_of_branch {label? : Option Label} {closeSection : Bool} {body : List Statement}
    {before after : Progress} {code : NotedCode}
    (hstays : closeSection = false → Statement.anyTransfersControl body = false)
    (h : (noteStatements definitions targets label? body ++
      if closeSection then Noting.close else pure []) before = .ok (code, after)) :
    after.tracker = if closeSection then before.tracker.idle else before.tracker := by
  obtain ⟨front, last, hfront, ⟨hopen, _, rfl⟩ | ⟨hclose, _, rfl⟩⟩ := Noting.closeIf_ok h
  · rw [hopen]
    exact stays_statements body (hstays hopen) hfront
  · have hlast := (carries_statements body (.self _) hfront).alike
    rw [hclose]
    exact (last.tracker.alike_idle.trans (hlast.trans before.tracker.alike_idle.symm)).ext rfl rfl

theorem tracker_of_cases {label? : Option Label} {closeSection : Bool} {entry : Tracker}
    {first result : Option Tracker} {cases : List (List Statement)} {before after : Progress}
    {codes : List NotedCode}
    (hstays : closeSection = false → Statement.anyCaseTransfersControl cases = false)
    (hbefore : before.tracker = entry)
    (hfirst : ∀ tracker ∈ first, tracker = if closeSection then entry.idle else entry)
    (h : noteCases definitions targets label? closeSection first cases before =
      .ok ((codes, result), after)) :
    after.tracker = entry ∧
      ∀ tracker ∈ result, tracker = if closeSection then entry.idle else entry := by
  induction cases generalizing first before codes with
  | nil =>
    obtain ⟨heq, rfl⟩ := Noting.pure_ok.1 h
    injection heq with _ hresult
    exact ⟨hbefore, hresult ▸ hfirst⟩
  | cons body rest ih =>
    obtain ⟨bodyCode, last, others, hbody, _, hrest, _⟩ := noteCases_cons_ok h
    have hlast := tracker_of_branch (fun hopen => (Bool.or_eq_false_iff.1 (hstays hopen)).1) hbody
    rw [hbefore] at hlast
    have hback : ({ last with tracker := before.tracker } : Progress).tracker = entry := hbefore
    refine ih (fun hopen => (Bool.or_eq_false_iff.1 (hstays hopen)).2) hback ?_ hrest
    intro tracker htracker
    cases htracker
    cases first with
    | none => exact hlast
    | some tracker => exact hfirst tracker rfl

/-- Where the first statement has no label, the tracker has one to retry. -/
def Headed (statements : List Statement) (tracker : Tracker) : Prop :=
  ∀ statement ∈ statements.head?, statement.isLabeled = false → tracker.label.isSome = true

theorem headed_of_label {statements : List Statement} {tracker : Tracker}
    (h : tracker.label.isSome = true) : Headed statements tracker :=
  fun _ _ _ => h

/-- After the arrival at a label there is one to retry. -/
theorem label_of_start {label : Uid} {name : String} {before after : Progress} {code : NotedCode}
    (h : Noting.start label name before = .ok (code, after)) (hsettled : before.tracker.Settled) :
    after.tracker.label.isSome = true := by
  rcases Noting.start_ok h with ⟨hcontinues, _, rfl⟩ | ⟨_, _, _, rfl⟩
  · obtain ⟨group, hopen, _⟩ := Tracker.continues_iff.1 hcontinues
    exact hsettled.label_of_isOpen (by rw [Tracker.isOpen, hopen]; rfl)
  · rfl

mutual

/-- A statement after which no label is needed leaves a label to retry. -/
theorem label_of_statement {label? : Option Label} (statement : Statement)
    {before after : Progress} {code : NotedCode}
    (hplaced : statement.Nested (Statement.checkAdjacent · = .ok ()))
    (hjumps : JumpsTo names statement.jumpTargets) (hanchored : before.Anchored names)
    (hhead : Headed [statement] before.tracker) (hstays : statement.needsLabelAfter = false)
    (h : noteStatement definitions targets label? statement before = .ok (code, after)) :
    after.tracker.label.isSome = true := by
  by_cases hlabeled : statement.isLabeled = false
  · rw [stays_statement statement hlabeled hstays h]
    exact hhead statement rfl hlabeled
  · cases statement with
    | labeled mark label body =>
      obtain ⟨front, reached, opening, started, inner, hfront, _, hstart, hinner, _⟩ :=
        noteStatement_labeled_ok h
      have hreached : reached.Anchored names := (Carries.reached hfront).anchored hanchored
      have hlabel := label_of_start hstart hreached.settled
      exact label_of_statements body hplaced.1 hplaced.2 hjumps
        ((Carries.arrive hstart).anchored hreached) (headed_of_label hlabel) (fun _ => hlabel)
        hstays hinner
    | _ => exact absurd rfl hlabeled

theorem label_of_statements {label? : Option Label} (statements : List Statement)
    {before after : Progress} {code : NotedCode}
    (hadjacent : Statement.checkAdjacent statements = .ok ())
    (hplaced : Statement.ListNested (Statement.checkAdjacent · = .ok ()) statements)
    (hjumps : JumpsTo names (Statement.listJumpTargets statements))
    (hanchored : before.Anchored names) (hhead : Headed statements before.tracker)
    (hempty : statements = [] → before.tracker.label.isSome = true)
    (hstays : Statement.lastNeedsLabelAfter statements = false)
    (h : noteStatements definitions targets label? statements before = .ok (code, after)) :
    after.tracker.label.isSome = true := by
  cases statements with
  | nil =>
    rw [(Noting.pure_ok.1 h).2]
    exact hempty rfl
  | cons statement rest =>
    obtain ⟨hstatementJumps, hrestJumps⟩ := JumpsTo.append.1 hjumps
    obtain ⟨front, between, back, hfront, hback, _⟩ := Noting.append_ok.1 h
    have hbetween := (carries_statement statement hstatementJumps hfront).anchored hanchored
    have hlabel (hneeds : statement.needsLabelAfter = false) :=
      label_of_statement statement hplaced.1 hstatementJumps hanchored hhead hneeds hfront
    cases rest with
    | nil =>
      rw [(Noting.pure_ok.1 hback).2]
      exact hlabel hstays
    | cons next rest =>
      simp only [Statement.checkAdjacent] at hadjacent
      split at hadjacent
      · cases hadjacent
      rename_i hnext
      refine label_of_statements (next :: rest) hadjacent hplaced.2 hrestJumps hbetween ?_ (by simp)
        hstays hback
      intro other hother hunlabeled
      cases hother
      exact hlabel (by simpa [hunlabeled] using hnext)

end

end Statements

end Go

end PlusCalGo
