import PlusCalGo.Locking.LockGroup
import PlusCalGo.Proofs.Go.Path

/-!
# Flow of the held lock group

Which lock group is held at each place of a body, read off the code alone. Code that flows is
respected by every path: the held group changes only as its leaves say, and at jumps and at the
labels that jumps land on no group is held.
-/

namespace PlusCalGo.Go

variable {κ : Type}

/-- What leaves do to the held group, and the labels that jumps may land on. -/
structure FlowRule (κ : Type) where
  leaf : κ → Option LockGroup → Option LockGroup → Prop
  lands : String → Prop

namespace Code

mutual

/-- Run with `before` held, the statement leaves `after` held, or sends control elsewhere with the
right group held: `exit` at a `break`, none at a jump or a `return`. -/
def Flows (rule : FlowRule κ) (exit before : Option LockGroup) :
    Code κ → Option LockGroup → Prop
  | line text, after =>
    if text = "return" then before = none
    else if text = "break" then before = exit
    else after = before
  | label name, after => (rule.lands name → before = none) ∧ after = before
  | goto _, _ => before = none
  | branch _ yes no, after =>
    ListFlows rule exit before yes after ∧ ListFlows rule exit before no after
  | loop body, after => ListFlows rule before before body before ∧ after = before
  | switch _ cases, after => CasesFlow rule exit before cases after
  | block body, after => ListFlows rule exit before body after
  | leaf content, after => rule.leaf content before after

def ListFlows (rule : FlowRule κ) (exit before : Option LockGroup) :
    List (Code κ) → Option LockGroup → Prop
  | [], after => after = before
  | code :: rest, after =>
    ∃ between, code.Flows rule exit before between ∧ ListFlows rule exit between rest after

def CasesFlow (rule : FlowRule κ) (exit before : Option LockGroup) :
    List (List (Code κ)) → Option LockGroup → Prop
  | [], _ => True
  | body :: rest, after =>
    ListFlows rule exit before body after ∧ CasesFlow rule exit before rest after

end

variable {rule : FlowRule κ} {exit before after : Option LockGroup}

theorem listFlows_append {first second : List (Code κ)} :
    ListFlows rule exit before (first ++ second) after ↔
      ∃ between, ListFlows rule exit before first between ∧
        ListFlows rule exit between second after := by
  induction first generalizing before with
  | nil => simp [ListFlows]
  | cons code rest ih =>
    simp only [List.cons_append, ListFlows, ih]
    constructor
    · intro h
      rcases h with ⟨middle, hcode, between, hrest, hsecond⟩
      exact ⟨between, ⟨middle, hcode, hrest⟩, hsecond⟩
    · intro h
      rcases h with ⟨between, ⟨middle, hcode, hrest⟩, hsecond⟩
      exact ⟨middle, hcode, between, hrest, hsecond⟩

theorem casesFlow_iff {cases : List (List (Code κ))} :
    CasesFlow rule exit before cases after ↔
      ∀ body ∈ cases, ListFlows rule exit before body after := by
  induction cases with
  | nil => simp [CasesFlow]
  | cons body rest ih => simp [CasesFlow, ih]

/-! ## Leaves that are written out -/

section Expand

variable {ι : Type} {write : κ → List (Code ι)} {rule : FlowRule κ} {other : FlowRule ι}

mutual

private theorem flows_expand (hlands : ∀ name, other.lands name → rule.lands name)
    (hwrite : ∀ exit content before after, rule.leaf content before after →
      ListFlows other exit before (write content) after) (code : Code κ)
    {exit before after : Option LockGroup} (h : code.Flows rule exit before after) :
    ListFlows other exit before (code.expand write) after := by
  cases code with
  | line text => exact ⟨after, h, rfl⟩
  | label name => exact ⟨after, ⟨fun hname => h.1 (hlands name hname), h.2⟩, rfl⟩
  | goto name => exact ⟨after, h, rfl⟩
  | branch condition yes no =>
    have hyes := flows_listExpand hlands hwrite yes h.1
    have hno := flows_listExpand hlands hwrite no h.2
    exact ⟨after, ⟨hyes, hno⟩, rfl⟩
  | loop body =>
    have hbody := flows_listExpand hlands hwrite body h.1
    exact ⟨after, ⟨hbody, h.2⟩, rfl⟩
  | switch subject cases => exact ⟨after, flows_casesExpand hlands hwrite cases h, rfl⟩
  | block body => exact ⟨after, flows_listExpand hlands hwrite body h, rfl⟩
  | leaf content => exact hwrite exit content before after h

/-- Code flows as before if what is written for each leaf does what the leaf does. -/
theorem flows_listExpand (hlands : ∀ name, other.lands name → rule.lands name)
    (hwrite : ∀ exit content before after, rule.leaf content before after →
      ListFlows other exit before (write content) after) (code : List (Code κ))
    {exit before after : Option LockGroup} (h : ListFlows rule exit before code after) :
    ListFlows other exit before (listExpand write code) after := by
  cases code with
  | nil => exact h
  | cons code rest =>
    obtain ⟨between, hcode, hrest⟩ := h
    have hfirst := flows_expand hlands hwrite code hcode
    have hsecond := flows_listExpand hlands hwrite rest hrest
    exact listFlows_append.2 ⟨between, hfirst, hsecond⟩

private theorem flows_casesExpand (hlands : ∀ name, other.lands name → rule.lands name)
    (hwrite : ∀ exit content before after, rule.leaf content before after →
      ListFlows other exit before (write content) after) (cases : List (List (Code κ)))
    {exit before after : Option LockGroup} (h : CasesFlow rule exit before cases after) :
    CasesFlow other exit before (casesExpand write cases) after := by
  cases cases with
  | nil => trivial
  | cons body rest =>
    have hbody := flows_listExpand hlands hwrite body h.1
    exact ⟨hbody, flows_casesExpand hlands hwrite rest h.2⟩

end

end Expand

end Code

/-! ## Points -/

/-- The frames go on from `before`, which a `break` in the current block reaches as `exit`, and no
group is held at the end. -/
def FramesFlow (rule : FlowRule κ) (exit before : Option LockGroup) : List (Frame κ) → Prop
  | [] => before = none
  | .rest code :: frames =>
    ∃ after, Code.ListFlows rule exit before code after ∧ FramesFlow rule exit after frames
  | .again body rest :: frames =>
    exit = before ∧ Code.ListFlows rule before before body before ∧
      ∃ outer after, Code.ListFlows rule outer before rest after ∧
        FramesFlow rule outer after frames

theorem framesFlow_rest {rule : FlowRule κ} {exit before : Option LockGroup}
    {code : List (Code κ)} {frames : List (Frame κ)} :
    FramesFlow rule exit before (.rest code :: frames) ↔
      ∃ after, Code.ListFlows rule exit before code after ∧ FramesFlow rule exit after frames :=
  Iff.rfl

theorem framesFlow_again {rule : FlowRule κ} {exit before : Option LockGroup}
    {body rest : List (Code κ)} {frames : List (Frame κ)} :
    FramesFlow rule exit before (.again body rest :: frames) ↔
      exit = before ∧ Code.ListFlows rule before before body before ∧
        ∃ outer after, Code.ListFlows rule outer before rest after ∧
          FramesFlow rule outer after frames :=
  Iff.rfl

/-- From the point on, control flows when `held` is held there. -/
def Point.Flows (rule : FlowRule κ) (held : Option LockGroup) (point : Point κ) : Prop :=
  ∃ exit after, Code.ListFlows rule exit held point.code after ∧
    FramesFlow rule exit after point.frames

/-- The held group after some leaves. -/
def Follows (leaf : κ → Option LockGroup → Option LockGroup → Prop) :
    List κ → Option LockGroup → Option LockGroup → Prop
  | [], before, after => after = before
  | content :: rest, before, after =>
    ∃ between, leaf content before between ∧ Follows leaf rest between after

theorem follows_append {leaf : κ → Option LockGroup → Option LockGroup → Prop}
    {first second : List κ} {before after : Option LockGroup} :
    Follows leaf (first ++ second) before after ↔
      ∃ between, Follows leaf first before between ∧ Follows leaf second between after := by
  induction first generalizing before with
  | nil => simp [Follows]
  | cons content rest ih =>
    simp only [List.cons_append, Follows, ih]
    constructor
    · intro h
      rcases h with ⟨middle, hcontent, between, hrest, hsecond⟩
      exact ⟨between, ⟨middle, hcontent, hrest⟩, hsecond⟩
    · intro h
      rcases h with ⟨between, ⟨middle, hcontent, hrest⟩, hsecond⟩
      exact ⟨middle, hcontent, between, hrest, hsecond⟩

section Jumps

variable {rule : FlowRule κ}

theorem leaveLoop_flows {exit before : Option LockGroup} {frames : List (Frame κ)}
    {point : Point κ} (hframes : FramesFlow rule exit before frames)
    (hleave : leaveLoop frames = some point) : point.Flows rule exit := by
  induction frames generalizing before with
  | nil => simp [leaveLoop] at hleave
  | cons frame frames ih =>
    cases frame with
    | rest code =>
      obtain ⟨after, _, hframes⟩ := hframes
      exact ih hframes hleave
    | again body rest =>
      obtain ⟨rfl, _, outer, after, hrest, hframes⟩ := hframes
      cases hleave
      exact ⟨outer, after, hrest, hframes⟩

mutual

private theorem seek_flows {name : String} (hlands : rule.lands name) (code : Code κ)
    {exit before between after : Option LockGroup} {rest : List (Code κ)}
    {frames : List (Frame κ)} {point : Point κ}
    (hcode : code.Flows rule exit before between)
    (hrest : Code.ListFlows rule exit between rest after)
    (hframes : FramesFlow rule exit after frames)
    (hseek : code.seek name rest frames = some point) : point.Flows rule none := by
  cases code with
  | line text => simp [Code.seek] at hseek
  | goto other => simp [Code.seek] at hseek
  | leaf content => simp [Code.seek] at hseek
  | label other =>
    simp only [Code.seek] at hseek
    split at hseek
    · rename_i hname
      subst hname
      cases hseek
      obtain ⟨hnone, rfl⟩ := hcode
      have hbefore := hnone hlands
      subst hbefore
      exact ⟨exit, after, ⟨none, ⟨fun _ => rfl, rfl⟩, hrest⟩, hframes⟩
    · simp at hseek
  | branch condition yes no =>
    have hrestFrame : FramesFlow rule exit between (.rest rest :: frames) :=
      framesFlow_rest.2 ⟨after, hrest, hframes⟩
    rcases Option.or_eq_some_iff.1 hseek with hyes | ⟨_, hno⟩
    · exact listSeek_flows hlands yes hcode.1 hrestFrame hyes
    · exact listSeek_flows hlands no hcode.2 hrestFrame hno
  | loop body =>
    obtain ⟨hbody, rfl⟩ := hcode
    exact listSeek_flows hlands body hbody
      (framesFlow_again.2 ⟨rfl, hbody, exit, after, hrest, hframes⟩) hseek
  | switch subject cases =>
    exact casesSeek_flows hlands cases hcode (framesFlow_rest.2 ⟨after, hrest, hframes⟩) hseek
  | block body =>
    exact listSeek_flows hlands body hcode (framesFlow_rest.2 ⟨after, hrest, hframes⟩) hseek

/-- A jump into code that flows lands where it goes on with no group held. -/
theorem listSeek_flows {name : String} (hlands : rule.lands name) (code : List (Code κ))
    {exit before after : Option LockGroup} {frames : List (Frame κ)} {point : Point κ}
    (hcode : Code.ListFlows rule exit before code after)
    (hframes : FramesFlow rule exit after frames)
    (hseek : Code.listSeek name frames code = some point) : point.Flows rule none := by
  cases code with
  | nil => simp [Code.listSeek] at hseek
  | cons code rest =>
    obtain ⟨between, hcode, hrest⟩ := hcode
    rcases Option.or_eq_some_iff.1 hseek with hhere | ⟨_, hlater⟩
    · exact seek_flows hlands code hcode hrest hframes hhere
    · exact listSeek_flows hlands rest hrest hframes hlater

private theorem casesSeek_flows {name : String} (hlands : rule.lands name)
    (cases : List (List (Code κ))) {exit before after : Option LockGroup}
    {frames : List (Frame κ)} {point : Point κ}
    (hcases : Code.CasesFlow rule exit before cases after)
    (hframes : FramesFlow rule exit after frames)
    (hseek : Code.casesSeek name frames cases = some point) : point.Flows rule none := by
  cases cases with
  | nil => simp [Code.casesSeek] at hseek
  | cons body rest =>
    rcases Option.or_eq_some_iff.1 hseek with hhere | ⟨_, hlater⟩
    · exact listSeek_flows hlands body hcases.1 hframes hhere
    · exact casesSeek_flows hlands rest hcases.2 hframes hlater

end

end Jumps

/-! ## Paths -/

section Paths

variable {rule : FlowRule κ} {body : List (Code κ)}

/-- Each step goes from a place that flows to one that flows, with the group held that the passed
leaf says. -/
theorem Step.flows {held : Option LockGroup} {leaf : Option κ} {before after : Point κ}
    (hbody : Code.ListFlows rule none none body none)
    (hstep : Step rule.lands body before leaf after) (hbefore : before.Flows rule held) :
    ∃ next, after.Flows rule next ∧ Follows rule.leaf leaf.toList held next := by
  obtain ⟨exit, last, hcode, hframes⟩ := hbefore
  cases hstep with
  | line hreturn hbreak =>
    obtain ⟨between, hline, hrest⟩ := hcode
    simp only [Code.Flows, hreturn, hbreak, if_false] at hline
    subst hline
    exact ⟨between, ⟨exit, last, hrest, hframes⟩, rfl⟩
  | «break» hleave =>
    obtain ⟨between, hline, hrest⟩ := hcode
    have hexit : held = exit := by simpa [Code.Flows] using hline
    subst hexit
    exact ⟨held, leaveLoop_flows hframes hleave, rfl⟩
  | label =>
    obtain ⟨between, ⟨_, rfl⟩, hrest⟩ := hcode
    exact ⟨between, ⟨exit, last, hrest, hframes⟩, rfl⟩
  | jump hlands hseek =>
    obtain ⟨between, hgoto, hrest⟩ := hcode
    have hheld : held = none := hgoto
    subst hheld
    have hend : FramesFlow rule none none [] := rfl
    exact ⟨none, listSeek_flows hlands body hbody hend hseek, rfl⟩
  | yes =>
    obtain ⟨between, ⟨hyes, _⟩, hrest⟩ := hcode
    exact ⟨held, ⟨exit, between, hyes, last, hrest, hframes⟩, rfl⟩
  | no =>
    obtain ⟨between, ⟨_, hno⟩, hrest⟩ := hcode
    exact ⟨held, ⟨exit, between, hno, last, hrest, hframes⟩, rfl⟩
  | loop =>
    obtain ⟨between, ⟨hinner, rfl⟩, hrest⟩ := hcode
    exact ⟨between, ⟨between, between, hinner, rfl, hinner, exit, last, hrest, hframes⟩, rfl⟩
  | switch hmem =>
    obtain ⟨between, hcases, hrest⟩ := hcode
    exact ⟨held, ⟨exit, between, Code.casesFlow_iff.1 hcases _ hmem, last, hrest, hframes⟩, rfl⟩
  | block =>
    obtain ⟨between, hinner, hrest⟩ := hcode
    exact ⟨held, ⟨exit, between, hinner, last, hrest, hframes⟩, rfl⟩
  | leaf =>
    obtain ⟨between, hleaf, hrest⟩ := hcode
    exact ⟨between, ⟨exit, last, hrest, hframes⟩, between, hleaf, rfl⟩
  | rest =>
    have hlast : last = held := hcode
    subst hlast
    obtain ⟨after, hrest, hframes⟩ := hframes
    exact ⟨last, ⟨exit, after, hrest, hframes⟩, rfl⟩
  | again =>
    have hlast : last = held := hcode
    subst hlast
    obtain ⟨rfl, hinner, outer, after, hrest, hframes⟩ := hframes
    exact ⟨exit, ⟨exit, exit, hinner, rfl, hinner, outer, after, hrest, hframes⟩, rfl⟩

/-- On every path through a body that flows from nothing held to nothing held, the leaves passed can
be followed, and control flows on from where the path has come to. -/
theorem Path.flows {passed : List κ} {point : Point κ}
    (hbody : Code.ListFlows rule none none body none)
    (hpath : Path rule.lands body passed point) :
    ∃ held, point.Flows rule held ∧ Follows rule.leaf passed none held := by
  induction hpath with
  | start => exact ⟨none, ⟨none, none, hbody, rfl⟩, rfl⟩
  | step _ hstep ih =>
    obtain ⟨held, hpoint, hpassed⟩ := ih
    obtain ⟨next, hafter, hleaf⟩ := hstep.flows hbody hpoint
    exact ⟨next, hafter, follows_append.2 ⟨held, hpassed, hleaf⟩⟩

end Paths

end PlusCalGo.Go
