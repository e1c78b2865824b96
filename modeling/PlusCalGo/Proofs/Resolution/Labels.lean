import PlusCalGo.Go.Body
import PlusCalGo.Resolution.Labels

/-!
# Labels and jumps of a body

What the rules for labels say of a body that keeps them: the labels in it differ in their names, and
every jump to another name than that of the end goes to one of them.
-/

namespace PlusCalGo

/-! ## Labels in statements -/

namespace Statement

mutual

/-- The labels in a statement, in program order. -/
def innerLabels : Statement → List Label
  | labeled _ label body => label :: listInnerLabels body
  | whileDo _ _ body | withDo _ _ body => listInnerLabels body
  | ifElse _ _ yes no => listInnerLabels yes ++ listInnerLabels no
  | either _ cases => casesInnerLabels cases
  | assign .. | leave _ | skip _ | call .. | macroCall .. | print .. | assert .. | await ..
  | goto .. => []

def listInnerLabels : List Statement → List Label
  | [] => []
  | statement :: rest => statement.innerLabels ++ listInnerLabels rest

def casesInnerLabels : List (List Statement) → List Label
  | [] => []
  | body :: rest => listInnerLabels body ++ casesInnerLabels rest

end

theorem casesInnerLabels_append {earlier cases : List (List Statement)} :
    casesInnerLabels (earlier ++ cases) = casesInnerLabels earlier ++ casesInnerLabels cases := by
  induction earlier with
  | nil => rfl
  | cons first rest ih =>
    rw [List.cons_append, casesInnerLabels, ih, casesInnerLabels, List.append_assoc]

end Statement

/-- The labels differ in their names from each other and from those seen before. -/
def Fresh (labels : List Label) (seen : List String) : Prop :=
  (labels.map (·.name)).Nodup ∧ ∀ label ∈ labels, label.name ∉ seen

/-- The names of some labels are added to those seen before. -/
def Collects (seen : List String) (labels : List Label) (after : List String) : Prop :=
  Fresh labels seen ∧ ∀ name, name ∈ after ↔ name ∈ seen ∨ ∃ label ∈ labels, label.name = name

section Collects

variable {seen between after : List String} {labels more : List Label}

theorem Fresh.left (h : Fresh (labels ++ more) seen) : Fresh labels seen := by
  obtain ⟨hnodup, hseen⟩ := h
  rw [List.map_append] at hnodup
  refine ⟨(List.nodup_append.1 hnodup).1, ?_⟩
  intro label hmem
  exact hseen label (List.mem_append_left _ hmem)

/-- Labels that come after others are fresh when the names of those are added. -/
theorem Fresh.right (h : Fresh (labels ++ more) seen)
    (hnames : ∀ name ∈ after, name ∈ seen ∨ ∃ label ∈ labels, label.name = name) :
    Fresh more after := by
  obtain ⟨hnodup, hseen⟩ := h
  rw [List.map_append] at hnodup
  obtain ⟨_, hmore, hdiffer⟩ := List.nodup_append.1 hnodup
  refine ⟨hmore, ?_⟩
  intro label hlabel hdeclared
  rcases hnames label.name hdeclared with hbefore | ⟨other, hother, hname⟩
  · exact hseen label (List.mem_append_right _ hlabel) hbefore
  · exact hdiffer _ (List.mem_map_of_mem hother) _ (List.mem_map_of_mem hlabel) hname

theorem Collects.refl (seen : List String) : Collects seen [] seen := by
  simp [Collects, Fresh]

theorem Collects.cons {label : Label} (hlabel : label.name ∉ seen)
    (h : Collects (label.name :: seen) labels after) : Collects seen (label :: labels) after := by
  obtain ⟨⟨hnodup, hfresh⟩, hnames⟩ := h
  refine ⟨⟨?_, ?_⟩, ?_⟩
  · rw [List.map_cons, List.nodup_cons]
    refine ⟨?_, hnodup⟩
    intro hmem
    obtain ⟨other, hother, hname⟩ := List.mem_map.1 hmem
    exact hfresh other hother (hname ▸ List.mem_cons_self)
  · refine List.forall_mem_cons.2 ⟨hlabel, ?_⟩
    exact fun other hother hseen => hfresh other hother (List.mem_cons_of_mem _ hseen)
  · intro name
    simp only [hnames, List.mem_cons, or_and_right, exists_or, exists_eq_left, or_assoc]
    rw [@eq_comm _ name]
    exact or_left_comm

theorem Collects.append (hfirst : Collects seen labels between)
    (hsecond : Collects between more after) : Collects seen (labels ++ more) after := by
  obtain ⟨⟨hfirstNodup, hfirstFresh⟩, hfirstNames⟩ := hfirst
  obtain ⟨⟨hsecondNodup, hsecondFresh⟩, hsecondNames⟩ := hsecond
  refine ⟨⟨?_, ?_⟩, ?_⟩
  · rw [List.map_append, List.nodup_append]
    refine ⟨hfirstNodup, hsecondNodup, ?_⟩
    intro name hname other hother hsame
    obtain ⟨label, hlabel, rfl⟩ := List.mem_map.1 hname
    obtain ⟨later, hlater, rfl⟩ := List.mem_map.1 hother
    exact hsecondFresh later hlater ((hfirstNames _).2 (.inr ⟨label, hlabel, hsame⟩))
  · intro label hlabel hseen
    rcases List.mem_append.1 hlabel with hlabel | hlabel
    · exact hfirstFresh label hlabel hseen
    · exact hsecondFresh label hlabel ((hfirstNames _).2 (.inl hseen))
  · intro name
    simp only [hsecondNames, hfirstNames, List.mem_append, or_and_right, exists_or, or_assoc]

end Collects

/-- The explicit jumps, but for those to the end, go to some of the names. -/
def JumpsTo (names jumps : List String) : Prop :=
  ∀ name ∈ jumps, name ≠ Label.done → name ∈ names

section JumpsTo

variable {names first second : List String}

theorem JumpsTo.nil : JumpsTo names [] := List.forall_mem_nil _

theorem JumpsTo.append : JumpsTo names (first ++ second) ↔
    JumpsTo names first ∧ JumpsTo names second := by
  simp only [JumpsTo, List.mem_append, or_imp, forall_and]

theorem JumpsTo.self (jumps : List String) : JumpsTo jumps jumps := fun _ hname _ => hname

end JumpsTo

namespace Statement

theorem casesJumpTargets_append {earlier cases : List (List Statement)} :
    casesJumpTargets (earlier ++ cases) = casesJumpTargets earlier ++ casesJumpTargets cases := by
  induction earlier with
  | nil => rfl
  | cons first rest ih =>
    rw [List.cons_append, casesJumpTargets, ih, casesJumpTargets, List.append_assoc]

/-! ## The rules -/

mutual

theorem collects_of_labelNames (statement : Statement) {seen after : List String}
    (h : labelNames seen statement = .ok after) : Collects seen statement.innerLabels after := by
  cases statement with
  | labeled mark label body =>
    simp only [labelNames] at h
    split at h
    · cases h
    split at h
    · cases h
    rename_i hseen
    exact (collects_of_listLabelNames body h).cons hseen
  | whileDo mark condition body => exact collects_of_listLabelNames body h
  | withDo mark bindings body => exact collects_of_listLabelNames body h
  | ifElse mark condition yes no =>
    obtain ⟨between, hyes, hno⟩ := ok_of_bind h
    exact (collects_of_listLabelNames yes hyes).append (collects_of_listLabelNames no hno)
  | either mark cases => exact collects_of_casesLabelNames cases h
  | _ =>
    cases h
    exact .refl seen

theorem collects_of_listLabelNames (statements : List Statement) {seen after : List String}
    (h : listLabelNames seen statements = .ok after) :
    Collects seen (listInnerLabels statements) after := by
  cases statements with
  | nil =>
    cases h
    exact .refl seen
  | cons statement rest =>
    obtain ⟨between, hstatement, hrest⟩ := ok_of_bind h
    exact (collects_of_labelNames statement hstatement).append
      (collects_of_listLabelNames rest hrest)

theorem collects_of_casesLabelNames (cases : List (List Statement)) {seen after : List String}
    (h : casesLabelNames seen cases = .ok after) :
    Collects seen (casesInnerLabels cases) after := by
  cases cases with
  | nil =>
    cases h
    exact .refl seen
  | cons body rest =>
    obtain ⟨between, hbody, hrest⟩ := ok_of_bind h
    exact (collects_of_listLabelNames body hbody).append (collects_of_casesLabelNames rest hrest)

end

mutual

theorem checkJumps_iff (statement : Statement) {labels : List String} :
    checkJumps labels statement = .ok () ↔ JumpsTo labels statement.jumpTargets := by
  cases statement with
  | goto mark target =>
    rw [checkJumps, jumpTargets, JumpsTo, List.forall_mem_singleton]
    split
    · rename_i hunknown
      simp [hunknown]
    · rename_i hknown
      simpa using hknown
  | labeled mark label body => exact listCheckJumps_iff body
  | whileDo mark condition body => exact listCheckJumps_iff body
  | withDo mark bindings body => exact listCheckJumps_iff body
  | ifElse mark condition yes no =>
    rw [checkJumps, checks_ok, jumpTargets, JumpsTo.append, listCheckJumps_iff yes,
      listCheckJumps_iff no]
  | either mark cases => exact casesCheckJumps_iff cases
  | _ => exact iff_of_true rfl .nil

theorem listCheckJumps_iff (statements : List Statement) {labels : List String} :
    listCheckJumps labels statements = .ok () ↔ JumpsTo labels (listJumpTargets statements) := by
  cases statements with
  | nil => exact iff_of_true rfl .nil
  | cons statement rest =>
    rw [listCheckJumps, checks_ok, listJumpTargets, JumpsTo.append, checkJumps_iff statement,
      listCheckJumps_iff rest]

theorem casesCheckJumps_iff (cases : List (List Statement)) {labels : List String} :
    casesCheckJumps labels cases = .ok () ↔ JumpsTo labels (casesJumpTargets cases) := by
  cases cases with
  | nil => exact iff_of_true rfl .nil
  | cons body rest =>
    rw [casesCheckJumps, checks_ok, casesJumpTargets, JumpsTo.append, listCheckJumps_iff body,
      casesCheckJumps_iff rest]

end

/-- A body that keeps the rules jumps to its own labels, which differ in their names. -/
theorem labels_of_checkLabels {body : List Statement} (h : checkLabels body = .ok ()) :
    ∃ names, Collects [] (listInnerLabels body) names ∧ JumpsTo names (listJumpTargets body) := by
  obtain ⟨names, hnames, h⟩ := ok_of_bind h
  obtain ⟨_, hjumps, _⟩ := ok_of_bind h
  exact ⟨names, collects_of_listLabelNames body hnames, (listCheckJumps_iff body).1 hjumps⟩

end Statement

end PlusCalGo
