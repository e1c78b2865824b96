import PlusCalGo.Resolution.Labels

/-!
# Placement of labels

What a body with well-placed labels looks like: in every list of statements in it, a statement
without label follows one that stays in its step.
-/

namespace PlusCalGo.Statement

/-- What directly follows a labeled statement is labeled. -/
def LabelsFollow : List Statement → Prop
  | previous :: next :: rest =>
    (previous.isLabeled = true → next.isLabeled = true) ∧ LabelsFollow (next :: rest)
  | _ => True

/-- A statement without label follows a statement that is not labeled and stays in its step. -/
def Stepwise : List Statement → Prop
  | previous :: next :: rest =>
    (next.isLabeled = false → previous.isLabeled = false ∧ previous.needsLabelAfter = false) ∧
      Stepwise (next :: rest)
  | _ => True

theorem Stepwise.tail {statement : Statement} {rest : List Statement}
    (h : Stepwise (statement :: rest)) : Stepwise rest := by
  cases rest with
  | nil => trivial
  | cons next rest => exact h.2

theorem Stepwise.head {statement next : Statement} {rest : List Statement}
    (h : Stepwise (statement :: rest)) (hnext : next ∈ rest.head?)
    (hlabel : next.isLabeled = false) :
    statement.isLabeled = false ∧ statement.needsLabelAfter = false := by
  cases rest with
  | nil => simp at hnext
  | cons other rest =>
    cases hnext
    exact h.1 hlabel

theorem stays_of_not_transfersControl {statement : Statement}
    (h : statement.transfersControl = false) :
    statement.isLabeled = false ∧ statement.needsLabelAfter = false := by
  cases statement <;> simp_all [transfersControl, isLabeled, needsLabelAfter]

mutual

/-- The property holds of every list of statements in a statement. -/
def Nested (property : List Statement → Prop) : Statement → Prop
  | labeled _ _ body | whileDo _ _ body | withDo _ _ body =>
    property body ∧ ListNested property body
  | ifElse _ _ yes no =>
    (property yes ∧ ListNested property yes) ∧ property no ∧ ListNested property no
  | either _ cases => CasesNested property cases
  | assign .. | leave _ | skip _ | call .. | macroCall .. | print .. | assert .. | await ..
  | goto .. => True

def ListNested (property : List Statement → Prop) : List Statement → Prop
  | [] => True
  | statement :: rest => statement.Nested property ∧ ListNested property rest

def CasesNested (property : List Statement → Prop) : List (List Statement) → Prop
  | [] => True
  | body :: rest => (property body ∧ ListNested property body) ∧ CasesNested property rest

end

/-- The property holds of every list of statements in a body, and of the body. -/
def Throughout (property : List Statement → Prop) (body : List Statement) : Prop :=
  property body ∧ ListNested property body

/-! ## Statements in statements -/

/-- The lists of statements that a statement is made of. -/
def parts : Statement → List (List Statement)
  | labeled _ _ body | whileDo _ _ body | withDo _ _ body => [body]
  | ifElse _ _ yes no => [yes, no]
  | either _ cases => cases
  | assign .. | leave _ | skip _ | call .. | macroCall .. | print .. | assert .. | await ..
  | goto .. => []

/-- The list is the body or stands in it, at any depth. -/
inductive ListIn (list : List Statement) : List Statement → Prop
  | self : ListIn list list
  | part {statement : Statement} {inner body : List Statement} :
    statement ∈ body → inner ∈ statement.parts → ListIn list inner → ListIn list body

theorem ListIn.head {list inner rest : List Statement} {statement : Statement}
    (hinner : inner ∈ statement.parts) (h : ListIn list inner) :
    ListIn list (statement :: rest) :=
  .part List.mem_cons_self hinner h

section Throughout

variable {property first second joint : List Statement → Prop}

theorem nested_iff (statement : Statement) :
    statement.Nested property ↔ ∀ part ∈ statement.parts, Throughout property part := by
  have hcases (cases : List (List Statement)) :
      CasesNested property cases ↔ ∀ part ∈ cases, Throughout property part := by
    induction cases with
    | nil => simp [CasesNested]
    | cons body rest ih => simp [CasesNested, ih, Throughout]
  cases statement with
  | either mark cases => exact hcases cases
  | ifElse mark condition yes no => simp [Nested, parts, Throughout]
  | _ => simp [Nested, parts, Throughout]

theorem listNested_iff (statements : List Statement) :
    ListNested property statements ↔
      ∀ statement ∈ statements, ∀ part ∈ statement.parts, Throughout property part := by
  induction statements with
  | nil => simp [ListNested]
  | cons statement rest ih => simp [ListNested, ih, nested_iff statement]

theorem Throughout.of_listIn {body list : List Statement} (h : Throughout property body)
    (hlist : ListIn list body) : property list := by
  induction hlist with
  | self => exact h.1
  | part hstatement hpart _ ih => exact ih ((listNested_iff _).1 h.2 _ hstatement _ hpart)

mutual

private theorem nested_of_forall (statement : Statement)
    (h : ∀ part ∈ statement.parts, ∀ list, ListIn list part → property list) :
    statement.Nested property := by
  cases statement with
  | labeled mark label body => exact throughout_of_forall body (h body List.mem_cons_self)
  | whileDo mark condition body => exact throughout_of_forall body (h body List.mem_cons_self)
  | withDo mark bindings body => exact throughout_of_forall body (h body List.mem_cons_self)
  | ifElse mark condition yes no =>
    exact ⟨throughout_of_forall yes (h yes List.mem_cons_self),
      throughout_of_forall no (h no (List.mem_cons_of_mem yes List.mem_cons_self))⟩
  | either mark cases => exact casesNested_of_forall cases h
  | assign mark pairs => trivial
  | leave mark => trivial
  | skip mark => trivial
  | call mark target arguments => trivial
  | macroCall mark target arguments => trivial
  | print mark value => trivial
  | assert mark value => trivial
  | await mark value => trivial
  | goto mark target => trivial

private theorem listNested_of_forall (statements : List Statement)
    (h : ∀ statement ∈ statements, ∀ part ∈ statement.parts, ∀ list, ListIn list part →
      property list) : ListNested property statements := by
  cases statements with
  | nil => trivial
  | cons statement rest =>
    obtain ⟨hstatement, hrest⟩ := List.forall_mem_cons.1 h
    exact ⟨nested_of_forall statement hstatement, listNested_of_forall rest hrest⟩

private theorem casesNested_of_forall (cases : List (List Statement))
    (h : ∀ part ∈ cases, ∀ list, ListIn list part → property list) :
    CasesNested property cases := by
  cases cases with
  | nil => trivial
  | cons body rest =>
    obtain ⟨hbody, hrest⟩ := List.forall_mem_cons.1 h
    exact ⟨throughout_of_forall body hbody, casesNested_of_forall rest hrest⟩

private theorem throughout_of_forall (body : List Statement)
    (h : ∀ list, ListIn list body → property list) : Throughout property body :=
  ⟨h body .self, listNested_of_forall body fun _ hstatement _ hpart _ hlist =>
    h _ (.part hstatement hpart hlist)⟩

end

theorem throughout_iff {body : List Statement} :
    Throughout property body ↔ ∀ list, ListIn list body → property list :=
  ⟨fun h _ => h.of_listIn, throughout_of_forall body⟩

theorem Throughout.and (h : ∀ list, first list → second list → joint list)
    {body : List Statement} (hfirst : Throughout first body) (hsecond : Throughout second body) :
    Throughout joint body :=
  throughout_iff.2 fun list hlist => h list (hfirst.of_listIn hlist) (hsecond.of_listIn hlist)

end Throughout

/-! ## The rules for labels -/

mutual

private theorem checkPlacement_iff (statement : Statement) :
    statement.checkPlacement = .ok () ↔ statement.Nested (checkAdjacent · = .ok ()) := by
  cases statement with
  | labeled mark label body =>
    rw [checkPlacement, checks_ok, listCheckPlacement_iff body]
    rfl
  | whileDo mark condition body =>
    rw [checkPlacement, checks_ok, listCheckPlacement_iff body]
    rfl
  | withDo mark bindings body =>
    rw [checkPlacement, checks_ok, listCheckPlacement_iff body]
    rfl
  | ifElse mark condition yes no =>
    rw [checkPlacement, checks_ok, checks_ok, checks_ok, listCheckPlacement_iff yes,
      listCheckPlacement_iff no, ← and_assoc]
    rfl
  | either mark cases => exact casesCheckPlacement_iff cases
  | _ => exact iff_of_true rfl trivial

theorem listCheckPlacement_iff (statements : List Statement) :
    listCheckPlacement statements = .ok () ↔
      ListNested (checkAdjacent · = .ok ()) statements := by
  cases statements with
  | nil => exact iff_of_true rfl trivial
  | cons statement rest =>
    rw [listCheckPlacement, checks_ok, checkPlacement_iff statement, listCheckPlacement_iff rest]
    rfl

private theorem casesCheckPlacement_iff (cases : List (List Statement)) :
    casesCheckPlacement cases = .ok () ↔ CasesNested (checkAdjacent · = .ok ()) cases := by
  cases cases with
  | nil => exact iff_of_true rfl trivial
  | cons body rest =>
    rw [casesCheckPlacement, checks_ok, checks_ok, listCheckPlacement_iff body,
      casesCheckPlacement_iff rest, ← and_assoc]
    rfl

end

theorem checkAdjacent_of_checkLabels {body : List Statement} (h : checkLabels body = .ok ()) :
    Throughout (checkAdjacent · = .ok ()) body := by
  obtain ⟨labels, _, h⟩ := ok_of_bind h
  obtain ⟨_, _, h⟩ := ok_of_bind h
  obtain ⟨_, hbody, hnested⟩ := ok_of_bind h
  exact ⟨hbody, (listCheckPlacement_iff body).1 hnested⟩

private theorem stepwise_of_adjacent {body : List Statement}
    (hadjacent : checkAdjacent body = .ok ()) (hfollow : LabelsFollow body) : Stepwise body := by
  induction body with
  | nil => trivial
  | cons previous rest ih =>
    cases rest with
    | nil => trivial
    | cons next rest =>
      simp only [checkAdjacent] at hadjacent
      split at hadjacent
      · simp at hadjacent
      rename_i hplaced
      refine ⟨fun hnext => ⟨?_, ?_⟩, ih hadjacent hfollow.2⟩
      · by_cases hprevious : previous.isLabeled = true
        · rw [hfollow.1 hprevious] at hnext
          simp at hnext
        · simpa using hprevious
      · simpa [hnext] using hplaced

/-- A body whose labels are checked, and in which labels follow labels, goes step by step. -/
theorem stepwise_of_checkLabels {body : List Statement} (h : checkLabels body = .ok ())
    (hfollow : Throughout LabelsFollow body) : Throughout Stepwise body :=
  Throughout.and (fun _ => stepwise_of_adjacent) (checkAdjacent_of_checkLabels h) hfollow

end PlusCalGo.Statement
