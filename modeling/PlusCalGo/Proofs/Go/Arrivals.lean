import PlusCalGo.Proofs.Go.Balance
import PlusCalGo.Proofs.Go.Everywhere

/-!
# Arrivals at labels

What stands around the labels and jumps of a body. Jumps that are written go to labels that are
reached with nothing held. The other ones go back to labels that were entered, and behind such a
label the group that was open before it is released.
-/

namespace PlusCalGo.Go

/-- Among the notes that are known, one says that the label of this name is entered. -/
def Entered (known : Note → Prop) (name : String) : Prop :=
  ∃ held label, known (.remark ⟨held, some label, .arrives label true⟩) ∧ label.name = name

/-- The code behind a label that was arrived at with a group open. -/
def LeavesGroup (held : Option LockGroup) (enters : Bool) (rest : NotedCode) : Prop :=
  enters = true → ∀ group, held = some group →
    ∃ strategy more, rest = .leaf (.call ⟨strategy, .release, group⟩) :: more

/-- Notes, labels and jumps are placed as lowering places them. -/
def Placed (known : Note → Prop) (targets : List String) : NotedCode → Prop
  | .leaf (.remark ⟨held, _, .arrives label _⟩) :: _ => label.name ∈ targets → held = none
  | .label name :: rest => ∃ held label enters,
    known (.remark ⟨held, some label, .arrives label enters⟩) ∧ label.name = name ∧
      LeavesGroup held enters rest
  | .goto name :: _ => name ∈ targets ∨ Entered known name
  | _ => True

/-- A tracker that retries labels which were entered. -/
def Tracker.Ready (groups : LockGroups) (known : Note → Prop) (tracker : Tracker) : Prop :=
  tracker.Steady groups ∧ ∀ label name, tracker.label = some (label, name) → Entered known name

/-- The code goes from a state to another one, and all in it is placed as it should. -/
def Places (groups : LockGroups) (known : Note → Prop) (targets : List String) (before : Progress)
    (code : NotedCode) (after : Progress) : Prop :=
  (∀ note ∈ Code.listLeaves code, known note) → before.tracker.Ready groups known →
    after.tracker.Ready groups known ∧ Code.ListEverywhere (Placed known targets) code

section Places

variable {groups : LockGroups} {known : Note → Prop} {targets : List String}
  {before between after : Progress} {code front back : NotedCode}

theorem Placed.more {code : Code Note} {rest : NotedCode} (more : NotedCode)
    (h : Placed known targets (code :: rest)) : Placed known targets (code :: rest ++ more) := by
  cases code with
  | leaf note =>
    cases note with
    | call call => trivial
    | remark remark =>
      obtain ⟨held, label?, subject⟩ := remark
      cases subject with
      | arrives label enters => exact h
      | evaluates expressions => trivial
      | calls arguments => trivial
      | retries => trivial
  | goto name => exact h
  | label name =>
    obtain ⟨held, label, enters, hknown, hname, hleaves⟩ := h
    refine ⟨held, label, enters, hknown, hname, fun henters group hgroup => ?_⟩
    obtain ⟨strategy, tail, htail⟩ := hleaves henters group hgroup
    exact ⟨strategy, tail ++ more, by rw [htail]; rfl⟩
  | line text => trivial
  | branch condition yes no => trivial
  | loop body => trivial
  | switch subject cases => trivial
  | block body => trivial

theorem everywhere_append (hfront : Code.ListEverywhere (Placed known targets) front)
    (hback : Code.ListEverywhere (Placed known targets) back) :
    Code.ListEverywhere (Placed known targets) (front ++ back) :=
  Code.listEverywhere_append (fun _ _ => Placed.more back) hfront hback

theorem everywhere_ofCalls (calls : List SectionCall) :
    Code.ListEverywhere (Placed known targets) (NotedCode.ofCalls calls) := by
  induction calls with
  | nil => trivial
  | cons call rest ih => exact ⟨trivial, trivial, ih⟩

theorem Evaluates.everywhere {held : Option LockGroup} {label? : Option Label}
    {property : Expression → Prop} (h : Evaluates held label? property code) :
    Code.ListEverywhere (Placed known targets) code := by
  obtain ⟨lines, rfl, -⟩ := h
  induction lines with
  | nil => trivial
  | cons line rest ih => exact ⟨trivial, trivial, trivial, trivial, ih⟩

theorem Tracker.Ready.idle {tracker : Tracker} (h : tracker.Ready groups known) :
    tracker.idle.Ready groups known :=
  ⟨h.1.idle, by simp [Tracker.idle]⟩

theorem Tracker.Ready.entered {tracker : Tracker} (h : tracker.Ready groups known) (label : Uid)
    {name : String} (hname : Entered known name) :
    (tracker.entered label name).Ready groups known := by
  refine ⟨h.1.entered label name, fun other text hlabel => ?_⟩
  cases hlabel
  exact hname

namespace Places

theorem refl (before : Progress) : Places groups known targets before [] before :=
  fun _ hready => ⟨hready, trivial⟩

theorem append (hfront : Places groups known targets before front between)
    (hback : Places groups known targets between back after) :
    Places groups known targets before (front ++ back) after := by
  intro hknown hready
  rw [Code.listLeaves_append] at hknown
  obtain ⟨hbetween, hfront⟩ :=
    hfront (fun note hnote => hknown note (List.mem_append_left _ hnote)) hready
  obtain ⟨hafter, hback⟩ :=
    hback (fun note hnote => hknown note (List.mem_append_right _ hnote)) hbetween
  exact ⟨hafter, everywhere_append hfront hback⟩

theorem congr (h : Places groups known targets before code after) {other : Progress}
    (hother : other.tracker = after.tracker) : Places groups known targets before code other := by
  unfold Places
  rw [hother]
  exact h

/-- Code in which nothing has to be known about the tracker. -/
theorem stay (h : Code.ListEverywhere (Placed known targets) code) :
    Places groups known targets before code before :=
  fun _ hready => ⟨hready, h⟩

theorem closing : Places groups known targets before (NotedCode.ofCalls before.tracker.closing)
    { before with tracker := before.tracker.idle } :=
  fun _ hready => ⟨hready.idle, everywhere_ofCalls _⟩

theorem ofStart {label : Uid} {name : String} (hname : Entered known name)
    (h : Noting.start label name before = .ok (code, after)) :
    Places groups known targets before code after := by
  rcases Noting.start_ok h with ⟨_, rfl, rfl⟩ | ⟨_, _, rfl, rfl⟩
  · exact refl after
  · exact fun _ hready => ⟨hready.entered label hname, everywhere_ofCalls _⟩

/-- Code that may be closed at its end. -/
theorem ofCloseIf {noting : Noting NotedCode} {closeSection : Bool}
    (h : (noting ++ if closeSection then Noting.close else pure []) before = .ok (code, after))
    (hcode : ∀ code after, noting before = .ok (code, after) →
      Places groups known targets before code after) :
    Places groups known targets before code after := by
  obtain ⟨front, last, hfront, ⟨_, rfl, rfl⟩ | ⟨_, rfl, rfl⟩⟩ := Noting.closeIf_ok h
  · exact hcode _ _ hfront
  · exact (hcode _ _ hfront).append closing

/-- A loop takes up the label again that it began at. -/
theorem ofEndLoop {entry : Tracker} (hentry : entry.Ready groups known)
    (h : Noting.endLoop entry.label before = .ok (code, after)) :
    Places groups known targets before code after := by
  cases hlabel : entry.label with
  | none =>
    rw [hlabel] at h
    obtain ⟨rfl, rfl⟩ := Noting.close_ok.1 h
    exact closing
  | some pair =>
    rw [hlabel] at h
    exact ofStart (hentry.2 pair.1 pair.2 hlabel) h

end Places

/-! ## Statements -/

/-- What stands around a label, and the step it begins. -/
private theorem places_arrival {label : Label} {opening inner : NotedCode} {started : Progress}
    (hstart : Noting.start label.uid label.name
      { before with labels := label.name :: before.labels } = .ok (opening, started))
    (hidle : label.name ∈ targets → before.tracker.openGroup = none)
    (hinner : Places groups known targets started inner after) :
    Places groups known targets before (.leaf (.remark ⟨before.tracker.openGroup, some label,
      .arrives label !before.tracker.continues label.uid⟩) :: .label label.name ::
        (opening ++ inner)) after := by
  intro hknown hready
  simp only [Code.listLeaves, Code.leaves, List.mem_append, List.mem_cons, List.not_mem_nil,
    or_false, false_or, Code.listLeaves_append] at hknown
  have hremark := hknown _ (.inl rfl)
  have hopening : ∀ note ∈ Code.listLeaves opening, known note :=
    fun note hnote => hknown note (.inr (.inl hnote))
  have hbody : ∀ note ∈ Code.listLeaves inner, known note :=
    fun note hnote => hknown note (.inr (.inr hnote))
  -- A label that goes on under the open group leaves the tracker at the step it was in.
  rcases Noting.start_ok hstart with ⟨hcontinues, rfl, rfl⟩ | ⟨hcontinues, _, rfl, rfl⟩
  · have hcontinues : before.tracker.continues label.uid = true := hcontinues
    obtain ⟨hafter, hinner⟩ := hinner hbody hready
    refine ⟨hafter, hidle, trivial, ⟨_, label, _, hremark, rfl, ?_⟩, trivial, hinner⟩
    simp [LeavesGroup, hcontinues]
  · have hcontinues : before.tracker.continues label.uid = false := hcontinues
    have hentered : Entered known label.name := by
      refine ⟨before.tracker.openGroup, label, ?_, rfl⟩
      rw [hcontinues] at hremark
      exact hremark
    obtain ⟨hafter, hinner⟩ := hinner hbody (hready.entered label.uid hentered)
    refine ⟨hafter, hidle, trivial, ⟨_, label, _, hremark, rfl, ?_⟩, trivial,
      everywhere_append (everywhere_ofCalls _) hinner⟩
    intro _ group hgroup
    obtain ⟨_, _, hlabel, _⟩ := hready.1.2 group hgroup
    have hclosing : before.tracker.closing =
        [⟨before.tracker.strategy.value, .release, group⟩] := by
      simp [Tracker.closing, hgroup, hlabel]
    exact ⟨_, _, by simp only [hclosing, List.cons_append, NotedCode.ofCalls, List.map_cons]; rfl⟩

mutual

theorem places_statement (groups : LockGroups) (known : Note → Prop) {definitions : Definitions}
    {targets : List String} {label? : Option Label} (statement : Statement)
    {before after : Progress} {code : NotedCode}
    (htargets : ∀ name ∈ statement.jumpTargets, name ∈ targets)
    (h : noteStatement definitions targets label? statement before = .ok (code, after)) :
    Places groups known targets before code after := by
  cases statement with
  | labeled mark label body =>
    obtain ⟨front, reached, opening, started, inner, hfront, _, hstart, hinner, rfl⟩ :=
      noteStatement_labeled_ok h
    have hbody := places_statements groups known body htargets hinner
    by_cases htarget : label.name ∈ targets
    · rw [if_pos htarget] at hfront
      obtain ⟨rfl, rfl⟩ := Noting.close_ok.1 hfront
      exact Places.closing.append (places_arrival hstart (fun _ => rfl) hbody)
    · rw [if_neg htarget] at hfront
      obtain ⟨rfl, rfl⟩ := Noting.pure_ok.1 hfront
      exact places_arrival hstart (fun hname => absurd hname htarget) hbody
  | whileDo mark condition body =>
    obtain ⟨text, inner, between, back, _, hinner, hback, _, rfl⟩ := noteStatement_whileDo_ok h
    intro hknown hready
    have hbody := (places_statements groups known body htargets hinner).append
      (.ofEndLoop hready hback)
    have hleaves : ∀ note ∈ Code.listLeaves (inner ++ back), known note := by
      intro note hnote
      rw [Code.listLeaves_append, List.mem_append] at hnote
      exact hknown note (by simp [Code.listLeaves, Code.leaves, hnote])
    obtain ⟨hafter, hbody⟩ := hbody hleaves hready
    exact ⟨hafter, trivial, ⟨trivial, trivial, trivial, ⟨⟨trivial, trivial, trivial⟩, trivial⟩,
      hbody⟩, trivial⟩
  | ifElse mark condition yes no =>
    obtain ⟨text, yesCode, yesLast, noCode, noLast, _, hyes, hno, _, rfl, rfl⟩ :=
      noteStatement_ifElse_ok h
    have hyes := Places.ofCloseIf hyes fun _ _ => places_statements groups known yes
      fun name hname => htargets name (List.mem_append_left _ hname)
    have hno := Places.ofCloseIf hno fun _ _ => places_statements groups known no
      fun name hname => htargets name (List.mem_append_right _ hname)
    intro hknown hready
    have hyesLeaves : ∀ note ∈ Code.listLeaves yesCode, known note := by
      intro note hnote
      exact hknown note (by simp [Code.listLeaves, Code.leaves, hnote])
    have hnoLeaves : ∀ note ∈ Code.listLeaves noCode, known note := by
      intro note hnote
      exact hknown note (by simp [Code.listLeaves, Code.leaves, hnote])
    obtain ⟨hafter, hyes⟩ := hyes hyesLeaves hready
    obtain ⟨_, hno⟩ := hno hnoLeaves hready
    exact ⟨hafter, trivial, trivial, trivial, ⟨hyes, hno⟩, trivial⟩
  | either mark cases =>
    obtain ⟨codes, first, last, hcases, ⟨_, rfl⟩, rfl⟩ := noteStatement_either_ok h
    intro hknown hready
    have hleaves : ∀ note ∈ Code.casesLeaves codes, known note := by
      intro note hnote
      exact hknown note (by simp [Code.listLeaves, Code.leaves, hnote])
    obtain ⟨hlast, hfirst, hcodes⟩ :=
      places_cases groups known cases htargets hcases hleaves hready (by simp)
    rw [hlast]
    exact ⟨hfirst, trivial, trivial, trivial, hcodes, trivial⟩
  | assign mark pairs =>
    obtain ⟨⟨_, rfl⟩, lines, hcode, hlines⟩ := noteStatement_assign_ok h
    refine Places.congr (Places.stay ?_) rfl
    rcases hcode with rfl | rfl
    · exact hlines.everywhere
    · exact ⟨trivial, hlines.everywhere, trivial⟩
  | leave mark =>
    obtain ⟨rfl, rfl⟩ := noteStatement_leave_ok h
    exact Places.closing.append (Places.stay ⟨trivial, trivial, trivial⟩)
  | skip mark =>
    obtain ⟨rfl, rfl⟩ := noteStatement_skip_ok h
    exact .refl after
  | call mark target arguments =>
    obtain ⟨text, _, rfl, rfl⟩ := noteStatement_call_ok h
    exact Places.closing.append (Places.stay ⟨trivial, trivial, trivial, trivial, trivial⟩)
  | macroCall mark target arguments => cases h
  | withDo mark bindings body =>
    obtain ⟨front, inner, _, hfront, hinner, rfl⟩ := noteStatement_withDo_ok h
    have hbody := (Places.stay hfront.everywhere).append
      (places_statements groups known body htargets hinner)
    intro hknown hready
    have hleaves : ∀ note ∈ Code.listLeaves (front ++ inner), known note := by
      intro note hnote
      rw [Code.listLeaves_append] at hnote
      exact hknown note (by simpa [Code.listLeaves, Code.leaves] using hnote)
    obtain ⟨hafter, hbody⟩ := hbody hleaves hready
    exact ⟨hafter, trivial, hbody, trivial⟩
  | print mark value =>
    obtain ⟨⟨_, rfl⟩, hlines⟩ := noteStatement_print_ok h
    exact Places.congr (Places.stay hlines.everywhere) rfl
  | assert mark value =>
    obtain ⟨condition, text, _, rfl, rfl⟩ := noteStatement_assert_ok h
    exact Places.stay ⟨trivial, trivial, trivial, ⟨⟨trivial, trivial, trivial⟩, trivial⟩, trivial⟩
  | await mark value =>
    obtain ⟨text, label, name, _, hlabel, rfl, rfl⟩ := noteStatement_await_ok h
    intro _ hready
    have hretry : Code.ListEverywhere (Placed known targets)
        (NotedCode.ofCalls before.tracker.aborting ++
          [.leaf (.remark ⟨none, label?, .retries⟩), .goto name]) :=
      everywhere_append (everywhere_ofCalls _)
        ⟨trivial, trivial, .inr (hready.2 label name hlabel), trivial, trivial⟩
    exact ⟨hready, trivial, trivial, trivial, ⟨hretry, trivial⟩, trivial⟩
  | goto mark target =>
    rcases noteStatement_goto_ok h with ⟨rfl, rfl⟩ | ⟨rfl, rfl⟩
    · exact Places.closing.append (Places.stay ⟨trivial, trivial, trivial⟩)
    · have htarget : target ∈ targets := htargets target (List.mem_singleton.2 rfl)
      refine Places.closing.append (Places.congr (Places.stay ?_) rfl)
      exact ⟨.inl htarget, trivial, trivial⟩

theorem places_statements (groups : LockGroups) (known : Note → Prop) {definitions : Definitions}
    {targets : List String} {label? : Option Label} (statements : List Statement)
    {before after : Progress} {code : NotedCode}
    (htargets : ∀ name ∈ Statement.listJumpTargets statements, name ∈ targets)
    (h : noteStatements definitions targets label? statements before = .ok (code, after)) :
    Places groups known targets before code after := by
  cases statements with
  | nil =>
    obtain ⟨rfl, rfl⟩ := Noting.pure_ok.1 h
    exact .refl after
  | cons statement rest =>
    obtain ⟨front, between, back, hfront, hback, rfl⟩ := Noting.append_ok.1 h
    exact (places_statement groups known statement
        (fun name hname => htargets name (List.mem_append_left _ hname)) hfront).append
      (places_statements groups known rest
        (fun name hname => htargets name (List.mem_append_right _ hname)) hback)

theorem places_cases (groups : LockGroups) (known : Note → Prop) {definitions : Definitions}
    {targets : List String} {label? : Option Label} {closeSection : Bool}
    {first result : Option Tracker} (cases : List (List Statement)) {before after : Progress}
    {codes : List NotedCode}
    (htargets : ∀ name ∈ Statement.casesJumpTargets cases, name ∈ targets)
    (h : noteCases definitions targets label? closeSection first cases before =
      .ok ((codes, result), after))
    (hknown : ∀ note ∈ Code.casesLeaves codes, known note)
    (hready : before.tracker.Ready groups known)
    (hfirst : ∀ tracker ∈ first, tracker.Ready groups known) :
    after.tracker = before.tracker ∧ (result.getD before.tracker).Ready groups known ∧
      Code.CasesEverywhere (Placed known targets) codes := by
  cases cases with
  | nil =>
    obtain ⟨heq, rfl⟩ := Noting.pure_ok.1 h
    injection heq with hcodes hresult
    subst hcodes hresult
    refine ⟨rfl, ?_, trivial⟩
    cases result with
    | none => exact hready
    | some first => exact hfirst first rfl
  | cons body rest =>
    obtain ⟨bodyCode, last, others, hbody, _, hrest, rfl⟩ := noteCases_cons_ok h
    simp only [Code.casesLeaves, List.mem_append] at hknown
    obtain ⟨hlast, hbody⟩ := Places.ofCloseIf hbody
      (fun _ _ => places_statements groups known body
        fun name hname => htargets name (List.mem_append_left _ hname))
      (fun note hnote => hknown note (.inl hnote)) hready
    have hnext : ∀ tracker ∈ some (first.getD last.tracker), tracker.Ready groups known := by
      intro tracker htracker
      cases htracker
      cases first with
      | none => exact hlast
      | some first => exact hfirst first rfl
    obtain ⟨hafter, hresult, hothers⟩ := places_cases groups known rest
      (fun name hname => htargets name (List.mem_append_right _ hname)) hrest
      (fun note hnote => hknown note (.inr hnote)) hready hnext
    exact ⟨hafter, hresult, hbody, hothers⟩

end

end Places

end PlusCalGo.Go
