import PlusCalGo.Proofs.Go.Functions
import PlusCalGo.Proofs.Resolution.Labels
import PlusCalGo.Proofs.Resolution.Linking
import PlusCalGo.Proofs.Resolution.Placement

/-!
# Rules for labels

The rules that the check of labels stands for, in terms of the lists of statements in a body. A
statement needs a label if control may have left the step before it: after a jump, after a branch
with a jump or a label in it, and after a labeled statement that ends in one of these. After other
labeled statements the check asks for no label, so there a step can go on behind the step of a label
inside of it.
-/

namespace PlusCalGo

namespace Statement

/-! ## Ends of steps -/

/-- Control goes on somewhere else than at the next statement. -/
def jumps : Statement → Bool
  | leave _ | call .. | macroCall .. | goto .. => true
  | labeled .. | whileDo .. | ifElse .. | either .. | withDo .. | assign .. | skip _ | print ..
  | assert .. | await .. => false

/-- The statement runs the statements in it at most once. -/
def branches : Statement → Bool
  | ifElse .. | either .. | withDo .. => true
  | labeled .. | whileDo .. | assign .. | leave _ | skip _ | call .. | macroCall .. | print ..
  | assert .. | await .. | goto .. => false

/-- A label or a jump stands somewhere in the statements. -/
def Breaks (body : List Statement) : Prop :=
  ∃ list, ListIn list body ∧ ∃ inner ∈ list, inner.isLabeled = true ∨ inner.jumps = true

/-- A jump, or a branch with a label or a jump in it. -/
def Leaves (statement : Statement) : Prop :=
  statement.jumps = true ∨ statement.branches = true ∧ ∃ part ∈ statement.parts, Breaks part

/-- A statement that leaves its step, or a labeled statement that ends in such a statement. -/
inductive EndsStep : Statement → Prop
  | leaves {statement : Statement} : statement.Leaves → EndsStep statement
  | labeled {mark : Mark} {label : Label} {front : List Statement} {last : Statement} :
    EndsStep last → EndsStep (.labeled mark label (front ++ [last]))

/-- In the list, a statement right after one that ends like this is labeled. -/
def LabeledAfter (ends : Statement → Prop) (list : List Statement) : Prop :=
  ∀ previous next, [previous, next] <:+: list → ends previous → next.isLabeled = true

section Ends

variable {ends other : Statement → Prop}

theorem labeledAfter_nil : LabeledAfter ends [] := by
  intro previous next h
  simp at h

theorem labeledAfter_singleton (statement : Statement) : LabeledAfter ends [statement] := by
  intro previous next h
  simpa using h.length_le

theorem labeledAfter_cons {first second : Statement} {rest : List Statement} :
    LabeledAfter ends (first :: second :: rest) ↔
      (ends first → second.isLabeled = true) ∧ LabeledAfter ends (second :: rest) := by
  have hinfix (pair : List Statement) : pair <:+: first :: second :: rest ↔
      pair <+: first :: second :: rest ∨ pair <:+: second :: rest := List.infix_cons_iff
  simp only [LabeledAfter, hinfix, List.cons_prefix_cons]
  constructor
  · intro h
    exact ⟨h first second (.inl ⟨rfl, rfl, List.nil_prefix⟩),
      fun previous next hinfix => h previous next (.inr hinfix)⟩
  · rintro ⟨hfirst, hrest⟩ previous next (⟨rfl, rfl, _⟩ | hinfix)
    · exact hfirst
    · exact hrest previous next hinfix

end Ends

theorem breaks_cons {statement : Statement} {rest : List Statement} :
    Breaks (statement :: rest) ↔ ((statement.isLabeled = true ∨ statement.jumps = true) ∨
      ∃ part ∈ statement.parts, Breaks part) ∨ Breaks rest := by
  constructor
  · rintro ⟨list, hlist, inner, hinner, hbreaks⟩
    cases hlist with
    | self =>
      rcases List.mem_cons.1 hinner with rfl | hinner
      · exact .inl (.inl hbreaks)
      · exact .inr ⟨rest, .self, inner, hinner, hbreaks⟩
    | part hstatement hpart hlist =>
      rcases List.mem_cons.1 hstatement with rfl | hstatement
      · exact .inl (.inr ⟨_, hpart, list, hlist, inner, hinner, hbreaks⟩)
      · exact .inr ⟨list, .part hstatement hpart hlist, inner, hinner, hbreaks⟩
  · rintro ((hbreaks | ⟨part, hpart, list, hlist, inner, hinner, hbreaks⟩) |
      ⟨list, hlist, inner, hinner, hbreaks⟩)
    · exact ⟨_, .self, statement, List.mem_cons_self, hbreaks⟩
    · exact ⟨list, hlist.head hpart, inner, hinner, hbreaks⟩
    · cases hlist with
      | self => exact ⟨_, .self, inner, List.mem_cons_of_mem statement hinner, hbreaks⟩
      | part hother hpart hlist =>
        exact ⟨list, .part (List.mem_cons_of_mem statement hother) hpart hlist, inner, hinner,
          hbreaks⟩

theorem not_breaks_nil : ¬ Breaks [] := by
  rintro ⟨list, hlist, inner, hinner, _⟩
  cases hlist with
  | self => cases hinner
  | part hstatement => cases hstatement

mutual

/-- Control can be transferred by labels and jumps, and by what they stand in. -/
theorem transfersControl_iff (statement : Statement) : statement.transfersControl = true ↔
    (statement.isLabeled = true ∨ statement.jumps = true) ∨
      ∃ part ∈ statement.parts, Breaks part := by
  cases statement with
  | either mark cases =>
    simpa [transfersControl, isLabeled, jumps, parts] using anyCaseTransfersControl_iff cases
  | whileDo mark condition body =>
    simpa [transfersControl, isLabeled, jumps, parts] using anyTransfersControl_iff body
  | withDo mark bindings body =>
    simpa [transfersControl, isLabeled, jumps, parts] using anyTransfersControl_iff body
  | ifElse mark condition yes no =>
    simp [transfersControl, isLabeled, jumps, parts, anyTransfersControl_iff yes,
      anyTransfersControl_iff no]
  | _ => simp [transfersControl, isLabeled, jumps, parts]

theorem anyTransfersControl_iff (statements : List Statement) :
    anyTransfersControl statements = true ↔ Breaks statements := by
  cases statements with
  | nil => simpa [anyTransfersControl] using not_breaks_nil
  | cons statement rest =>
    rw [breaks_cons, ← transfersControl_iff statement, ← anyTransfersControl_iff rest]
    simp [anyTransfersControl]

theorem anyCaseTransfersControl_iff (cases : List (List Statement)) :
    anyCaseTransfersControl cases = true ↔ ∃ part ∈ cases, Breaks part := by
  cases cases with
  | nil => simp [anyCaseTransfersControl]
  | cons body rest =>
    simp [anyCaseTransfersControl, anyTransfersControl_iff body, anyCaseTransfersControl_iff rest]

end

/-! ## What the check accepts -/

private theorem endsStep_iff_leaves {statement : Statement} (h : statement.isLabeled = false) :
    EndsStep statement ↔ statement.Leaves := by
  constructor
  · intro hends
    cases hends with
    | leaves hleaves => exact hleaves
    | labeled => cases h
  · exact .leaves

private theorem leaves_iff_transfersControl {statement : Statement}
    (h : statement.branches = true) :
    statement.Leaves ↔ statement.transfersControl = true := by
  rw [transfersControl_iff, Leaves]
  cases statement <;> simp_all [branches, isLabeled, jumps]

mutual

/-- A label is asked for right behind the statements that end their step. -/
theorem needsLabelAfter_iff (statement : Statement) :
    statement.needsLabelAfter = true ↔ statement.EndsStep := by
  cases statement with
  | labeled mark label body =>
    rw [needsLabelAfter, lastNeedsLabelAfter_iff body]
    constructor
    · rintro ⟨front, last, rfl, hlast⟩
      exact .labeled hlast
    · intro hends
      cases hends with
      | leaves hleaves => simp [Leaves, jumps, branches] at hleaves
      | labeled hlast => exact ⟨_, _, rfl, hlast⟩
  | ifElse mark condition yes no =>
    rw [endsStep_iff_leaves rfl, leaves_iff_transfersControl rfl]
    simp [needsLabelAfter]
  | either mark cases =>
    rw [endsStep_iff_leaves rfl, leaves_iff_transfersControl rfl]
    simp [needsLabelAfter]
  | withDo mark bindings body =>
    rw [endsStep_iff_leaves rfl, leaves_iff_transfersControl rfl]
    simp [needsLabelAfter]
  | _ =>
    rw [endsStep_iff_leaves rfl]
    simp [needsLabelAfter, Leaves, jumps, branches]

theorem lastNeedsLabelAfter_iff (statements : List Statement) :
    lastNeedsLabelAfter statements = true ↔
      ∃ front last, statements = front ++ [last] ∧ EndsStep last := by
  cases statements with
  | nil => simp [lastNeedsLabelAfter]
  | cons statement rest =>
    cases rest with
    | nil =>
      rw [lastNeedsLabelAfter, needsLabelAfter_iff statement]
      constructor
      · exact fun hends => ⟨[], statement, rfl, hends⟩
      · rintro ⟨front, last, heq, hends⟩
        obtain ⟨rfl, heq⟩ := List.append_eq_singleton_iff.1 heq.symm |>.resolve_right (by simp)
        cases heq
        exact hends
    | cons next rest =>
      rw [lastNeedsLabelAfter, lastNeedsLabelAfter_iff (next :: rest)]
      constructor
      · rintro ⟨front, last, heq, hends⟩
        exact ⟨statement :: front, last, by rw [heq, List.cons_append], hends⟩
      · rintro ⟨front, last, heq, hends⟩
        cases front with
        | nil => cases heq
        | cons first front => exact ⟨front, last, (List.cons.inj heq).2, hends⟩

end

theorem checkAdjacent_iff (statements : List Statement) :
    checkAdjacent statements = .ok () ↔ LabeledAfter EndsStep statements := by
  induction statements with
  | nil => simpa [checkAdjacent] using labeledAfter_nil
  | cons previous rest ih =>
    cases rest with
    | nil => simpa [checkAdjacent] using labeledAfter_singleton previous
    | cons next rest =>
      rw [labeledAfter_cons, ← ih, ← needsLabelAfter_iff, checkAdjacent]
      split
      · rename_i hmissing
        simp_all
      · rename_i hplaced
        simp_all

/-- Names that can be declared behind others: they are new, and none is reserved. -/
def Declarable (labels : List Label) (seen : List String) : Prop :=
  Fresh labels seen ∧ ∀ label ∈ labels, label.name ≠ Label.done

section Declarable

variable {labels more : List Label} {seen : List String}

private theorem declarable_nil : Declarable [] seen := by simp [Declarable, Fresh]

private theorem fresh_cons {label : Label} : Fresh (label :: labels) seen ↔
    label.name ∉ seen ∧ Fresh labels (label.name :: seen) := by
  constructor
  · intro h
    obtain ⟨hname, _⟩ := List.forall_mem_cons.1 h.2
    have hlabels : Fresh ([label] ++ labels) seen := h
    refine ⟨hname, hlabels.right fun name hmem => ?_⟩
    simpa [or_comm, eq_comm] using hmem
  · rintro ⟨hname, hlabels⟩
    have hcollects : Collects (label.name :: seen) labels
        ((labels.map (·.name)) ++ label.name :: seen) := ⟨hlabels, by simp [or_comm]⟩
    exact (hcollects.cons hname).1

/-- The labels of a first part are declarable, and then those of the second part. -/
private theorem declarable_bind {first : Except Diagnostic (List String)}
    {next : List String → Except Diagnostic (List String)}
    (hfirst : (∃ between, first = .ok between) ↔ Declarable labels seen)
    (hcollects : ∀ between, first = .ok between → Collects seen labels between)
    (hnext : ∀ between, (∃ after, next between = .ok after) ↔ Declarable more between) :
    (∃ after, (do next (← first)) = .ok after) ↔ Declarable (labels ++ more) seen := by
  constructor
  · rintro ⟨after, h⟩
    obtain ⟨between, hbetween, hafter⟩ := ok_of_bind h
    obtain ⟨_, hdone⟩ := hfirst.1 ⟨between, hbetween⟩
    obtain ⟨hfresh, hmoreDone⟩ := (hnext between).1 ⟨after, hafter⟩
    have hmore : Collects between more (more.map (·.name) ++ between) := ⟨hfresh, by simp [or_comm]⟩
    exact ⟨((hcollects between hbetween).append hmore).1,
      List.forall_mem_append.2 ⟨hdone, hmoreDone⟩⟩
  · rintro ⟨hfresh, hdone⟩
    obtain ⟨hlabelsDone, hmoreDone⟩ := List.forall_mem_append.1 hdone
    obtain ⟨between, hbetween⟩ := hfirst.2 ⟨hfresh.left, hlabelsDone⟩
    obtain ⟨_, hnames⟩ := hcollects between hbetween
    obtain ⟨after, hafter⟩ :=
      (hnext between).2 ⟨hfresh.right fun name => (hnames name).1, hmoreDone⟩
    exact ⟨after, by rw [hbetween]; exact hafter⟩

end Declarable

mutual

private theorem labelNames_iff (statement : Statement) {seen : List String} :
    (∃ after, labelNames seen statement = .ok after) ↔ Declarable statement.innerLabels seen := by
  cases statement with
  | labeled mark label body =>
    rw [labelNames, innerLabels, Declarable, fresh_cons, List.forall_mem_cons]
    split
    · rename_i hdone
      simp [hdone]
    split
    · rename_i hseen
      simp [hseen]
    · rename_i hdone hseen
      rw [listLabelNames_iff body, Declarable]
      tauto
  | whileDo mark condition body => exact listLabelNames_iff body
  | withDo mark bindings body => exact listLabelNames_iff body
  | ifElse mark condition yes no =>
    exact declarable_bind (listLabelNames_iff yes) (fun _ => collects_of_listLabelNames yes)
      fun _ => listLabelNames_iff no
  | either mark cases => exact casesLabelNames_iff cases
  | _ => exact iff_of_true ⟨seen, rfl⟩ declarable_nil

private theorem listLabelNames_iff (statements : List Statement) {seen : List String} :
    (∃ after, listLabelNames seen statements = .ok after) ↔
      Declarable (listInnerLabels statements) seen := by
  cases statements with
  | nil => exact iff_of_true ⟨seen, rfl⟩ declarable_nil
  | cons statement rest =>
    exact declarable_bind (labelNames_iff statement) (fun _ => collects_of_labelNames statement)
      fun _ => listLabelNames_iff rest

private theorem casesLabelNames_iff (cases : List (List Statement)) {seen : List String} :
    (∃ after, casesLabelNames seen cases = .ok after) ↔
      Declarable (casesInnerLabels cases) seen := by
  cases cases with
  | nil => exact iff_of_true ⟨seen, rfl⟩ declarable_nil
  | cons body rest =>
    exact declarable_bind (listLabelNames_iff body) (fun _ => collects_of_listLabelNames body)
      fun _ => casesLabelNames_iff rest

end

/-- The rules for the labels of a body. -/
structure LabelRules (body : List Statement) : Prop where
  unique : ((listInnerLabels body).map (·.name)).Nodup
  unreserved : ∀ label ∈ listInnerLabels body, label.name ≠ Label.done
  /-- Jumps finish the body or go to one of its labels. -/
  jumps : ∀ target ∈ listJumpTargets body, target = Label.done ∨
    ∃ label ∈ listInnerLabels body, label.name = target
  placed : ∀ list, ListIn list body → LabeledAfter EndsStep list

/-- The check lets a body through if and only if it keeps the rules. -/
theorem checkLabels_iff {body : List Statement} : checkLabels body = .ok () ↔ LabelRules body := by
  have hplaced : checkAdjacent body = .ok () ∧ listCheckPlacement body = .ok () ↔
      ∀ list, ListIn list body → LabeledAfter EndsStep list := by
    have hthroughout : Throughout (checkAdjacent · = .ok ()) body ↔ _ := throughout_iff
    rw [listCheckPlacement_iff]
    exact hthroughout.trans (forall₂_congr fun list _ => checkAdjacent_iff list)
  have hnames : (∃ after, listLabelNames [] body = .ok after) ↔ _ := listLabelNames_iff body
  have hjumps {after : List String} (hafter : Collects [] (listInnerLabels body) after) :
      JumpsTo after (listJumpTargets body) ↔ ∀ target ∈ listJumpTargets body,
        target = Label.done ∨ ∃ label ∈ listInnerLabels body, label.name = target := by
    refine forall₂_congr fun target _ => ?_
    simp [hafter.2, or_iff_not_imp_left]
  constructor
  · intro h
    obtain ⟨after, hafter, h⟩ := ok_of_bind h
    obtain ⟨hchecked, h⟩ := checks_ok.1 h
    obtain ⟨hfresh, hdone⟩ := hnames.1 ⟨after, hafter⟩
    exact ⟨hfresh.1, hdone, (hjumps (collects_of_listLabelNames body hafter)).1
      ((listCheckJumps_iff body).1 hchecked), hplaced.1 (checks_ok.1 h)⟩
  · intro h
    obtain ⟨after, hafter⟩ := hnames.2 ⟨⟨h.unique, fun _ _ => List.not_mem_nil⟩, h.unreserved⟩
    rw [checkLabels, hafter]
    refine checks_ok.2 ⟨(listCheckJumps_iff body).2 ?_, checks_ok.2 (hplaced.2 h.placed)⟩
    exact (hjumps (collects_of_listLabelNames body hafter)).2 h.jumps

/-- A labeled statement is labeled, or it leaves its step. -/
def LabeledOrLeaves (statement : Statement) : Prop :=
  statement.isLabeled = true ∨ statement.Leaves

end Statement

open Statement

namespace Algorithm

variable {algorithm : Algorithm} {definitions : Definitions}

theorem checkLabels_of_resolve (h : algorithm.resolve = .ok definitions) {source : Source}
    (hsource : source ∈ algorithm.sources) : checkLabels source.body = .ok () := by
  obtain ⟨hprocedures, hprocesses, _⟩ := grows_of_resolve h
  rcases List.mem_append.1 hsource with hsource | hsource
  · obtain ⟨procedure, hmem, rfl⟩ := List.mem_map.1 hsource
    exact hprocedures procedure hmem
  · obtain ⟨process, hmem, rfl⟩ := List.mem_map.1 hsource
    exact hprocesses process hmem

/-- Every body of a resolved algorithm keeps the rules for labels, and the check asks for nothing
else. Behind every statement that leaves its step stands a label. This holds behind every labeled
statement as well if and only if the author of the body puts one there: the check asks for it only
where the labeled statement ends by leaving its step. -/
theorem resolve_labels (h : algorithm.resolve = .ok definitions) :
    (∀ body, checkLabels body = .ok () ↔ LabelRules body) ∧
      ∀ source ∈ algorithm.sources, LabelRules source.body ∧
        ∀ list, ListIn list source.body → LabeledAfter Leaves list ∧
          (LabeledAfter LabeledOrLeaves list ↔ LabeledAfter (·.isLabeled = true) list) := by
  refine ⟨fun body => checkLabels_iff, fun source hsource => ?_⟩
  have hrules := checkLabels_iff.1 (checkLabels_of_resolve h hsource)
  refine ⟨hrules, fun list hlist => ?_⟩
  have hplaced := hrules.placed list hlist
  have hleaves : LabeledAfter Leaves list := fun previous next hnext hprevious =>
    hplaced previous next hnext (.leaves hprevious)
  refine ⟨hleaves, fun hall previous next hnext hlabeled => ?_,
    fun hlabeled previous next hnext => ?_⟩
  · exact hall previous next hnext (.inl hlabeled)
  · rintro (hprevious | hprevious)
    · exact hlabeled previous next hnext hprevious
    · exact hleaves previous next hnext hprevious

/-! ## A step that goes on behind another one

The step `a` holds the step `b`, and writes the global `x` behind it. The branch in the step `c`
jumps, so the label `d` has to follow it. -/

private def resuming : Algorithm :=
  let mark (number : UInt32) : Mark := ⟨⟨number⟩, .unknown⟩
  ⟨"T", [], [⟨⟨1⟩, "x", some (.number ⟨2⟩ 0), .plain, .unknown⟩], [],
    [⟨⟨3⟩, "P", ⟨4⟩, .single (.number ⟨5⟩ 1), [],
      [.labeled (mark 10) ⟨⟨11⟩, "a"⟩
        [.labeled (mark 12) ⟨⟨13⟩, "b"⟩ [.skip (mark 14)],
          .assign (mark 15) [⟨.identifier ⟨16⟩ "x", .number ⟨17⟩ 1⟩]],
        .labeled (mark 20) ⟨⟨21⟩, "c"⟩
          [.ifElse (mark 22) (.bool ⟨23⟩ true) [.goto (mark 24) "a"] [],
            .labeled (mark 25) ⟨⟨26⟩, "d"⟩ [.goto (mark 27) "Done"]]]⟩]⟩

private def resumingDefinitions : Definitions :=
  ⟨[⟨⟨1⟩, "x", .global .plain, .unknown⟩, ⟨⟨4⟩, "self", .processSelf, .unknown⟩], [(⟨16⟩, ⟨1⟩)]⟩

private theorem resuming_resolve : resuming.resolve = .ok resumingDefinitions := rfl

theorem resolve_labels_resuming :
    resuming.resolve = .ok resumingDefinitions ∧ ∀ source ∈ resuming.sources,
      LabelRules source.body ∧ ∀ list, ListIn list source.body → LabeledAfter Leaves list := by
  refine ⟨resuming_resolve, fun source hsource => ?_⟩
  obtain ⟨hrules, hlists⟩ := (resolve_labels resuming_resolve).2 source hsource
  exact ⟨hrules, fun list hlist => (hlists list hlist).1⟩

/-- A body is accepted in which the statement right behind a labeled one has no label. -/
theorem unlabeled_behind_label :
    resuming.resolve = .ok resumingDefinitions ∧
      ∃ source ∈ resuming.sources, ∃ list, ListIn list source.body ∧
        ¬ LabeledAfter LabeledOrLeaves list := by
  refine ⟨resuming_resolve, _, List.mem_singleton_self _, _,
    .part List.mem_cons_self List.mem_cons_self .self, fun h => ?_⟩
  have hlabeled := h _ _ (List.infix_refl _) (.inl rfl)
  cases hlabeled

end Algorithm

end PlusCalGo
