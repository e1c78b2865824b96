import PlusCalGo.Proofs.Go.Path
import PlusCalGo.Proofs.Go.Success

/-!
# Names of labels

Every label stands in a body once, behind one remark about the arrival at it. So a remark is known
by the name of its label.
-/

namespace PlusCalGo.Go

/-- The name of the label that a note tells the arrival at. -/
def Note.arrivalName? : Note → Option String
  | .remark ⟨_, _, .arrives label _⟩ => some label.name
  | _ => none

def arrivalNames (notes : List Note) : List String := notes.filterMap Note.arrivalName?

@[simp] theorem arrivalNames_append (first second : List Note) :
    arrivalNames (first ++ second) = arrivalNames first ++ arrivalNames second :=
  List.filterMap_append

@[simp] theorem arrivalNames_evaluates {held : Option LockGroup} {label? : Option Label}
    {expressions : List Expression} (rest : List Note) :
    arrivalNames (.remark ⟨held, label?, .evaluates expressions⟩ :: rest) = arrivalNames rest :=
  rfl

theorem mem_arrivalNames {notes : List Note} {name : String} :
    name ∈ arrivalNames notes ↔ ∃ note ∈ notes, note.arrivalName? = some name :=
  List.mem_filterMap

/-- Notes on arrivals at labels of different names differ in these names. -/
theorem eq_of_arrivalName?_eq {notes : List Note} (hnodup : (arrivalNames notes).Nodup)
    {first second : Note} (hfirst : first ∈ notes) (hsecond : second ∈ notes) {name : String}
    (hname : first.arrivalName? = some name) (hsame : second.arrivalName? = some name) :
    first = second := by
  induction notes with
  | nil => simp at hfirst
  | cons note rest ih =>
    have hhead {other : Note} (hother : other ∈ rest) (hnote : note.arrivalName? = some name)
        (hname : other.arrivalName? = some name) : False := by
      unfold arrivalNames at hnodup
      rw [List.filterMap_cons_some hnote, List.nodup_cons] at hnodup
      exact hnodup.1 (mem_arrivalNames.2 ⟨other, hother, hname⟩)
    rcases List.mem_cons.1 hfirst with rfl | hfirstRest <;>
      rcases List.mem_cons.1 hsecond with rfl | hsecondRest
    · rfl
    · exact (hhead hsecondRest hname hsame).elim
    · exact (hhead hfirstRest hsame hname).elim
    · refine ih ?_ hfirstRest hsecondRest
      exact hnodup.sublist ((List.sublist_cons_self note rest).filterMap _)

/-- The code goes from a state to another one and declares its labels on the way. -/
def Declares (before : Progress) (code : NotedCode) (after : Progress) : Prop :=
  arrivalNames (Code.listLeaves code) = Code.listLabelNames code ∧
    after.labels = (Code.listLabelNames code).reverse ++ before.labels ∧
    (before.labels.Nodup → after.labels.Nodup)

section Declares

variable {before between after : Progress} {code front back : NotedCode}

namespace Declares

theorem append (hfront : Declares before front between) (hback : Declares between back after) :
    Declares before (front ++ back) after := by
  obtain ⟨hfrontNames, hfrontLabels, hfrontNodup⟩ := hfront
  obtain ⟨hbackNames, hbackLabels, hbackNodup⟩ := hback
  refine ⟨by simp [hfrontNames, hbackNames], ?_, hbackNodup ∘ hfrontNodup⟩
  rw [hbackLabels, hfrontLabels]
  simp

/-- Only the labels count, of the states and of the code. -/
theorem congr (h : Declares before code after) {other : Progress} {more : NotedCode}
    (hother : other.labels = after.labels)
    (hnotes : arrivalNames (Code.listLeaves more) = arrivalNames (Code.listLeaves code))
    (hlabels : Code.listLabelNames more = Code.listLabelNames code) :
    Declares before more other := by
  unfold Declares
  rw [hother, hnotes, hlabels]
  exact h

theorem refl (before : Progress) : Declares before [] before :=
  ⟨rfl, rfl, id⟩

theorem ofCalls (calls : List SectionCall) (hsame : after.labels = before.labels) :
    Declares before (NotedCode.ofCalls calls) after := by
  have hnames : arrivalNames (Code.listLeaves (NotedCode.ofCalls calls)) = [] ∧
      Code.listLabelNames (NotedCode.ofCalls calls) = [] := by
    induction calls with
    | nil => exact ⟨rfl, rfl⟩
    | cons call rest ih => exact ih
  exact (refl before).congr hsame hnames.1 hnames.2

theorem ofPlainLines (h : PlainLines code) : Declares before code before := by
  obtain ⟨texts, rfl, -⟩ := h
  have hnames : arrivalNames (Code.listLeaves (texts.map .line)) = [] ∧
      Code.listLabelNames (texts.map Code.line : NotedCode) = [] := by
    induction texts with
    | nil => exact ⟨rfl, rfl⟩
    | cons text rest ih => exact ih
  exact (refl before).congr rfl hnames.1 hnames.2

theorem ofLines {held : Option LockGroup} {label? : Option Label} {property : Expression → Prop}
    (h : Evaluates held label? property code) (hsame : after.labels = before.labels) :
    Declares before code after := by
  obtain ⟨lines, rfl, -⟩ := h
  have hnames : arrivalNames (Code.listLeaves (lines.flatMap (Evaluation.code held label?))) = [] ∧
      Code.listLabelNames (lines.flatMap (Evaluation.code held label?)) = [] := by
    induction lines with
    | nil => exact ⟨rfl, rfl⟩
    | cons line rest ih => exact ih
  exact (refl before).congr hsame hnames.1 hnames.2

theorem ofStart {label : Uid} {name : String}
    (h : Noting.start label name before = .ok (code, after)) : Declares before code after := by
  rcases Noting.start_ok h with ⟨_, rfl, rfl⟩ | ⟨_, _, rfl, rfl⟩
  · exact refl after
  · exact ofCalls _ rfl

theorem ofEndLoop {entry : Option (Uid × String)}
    (h : Noting.endLoop entry before = .ok (code, after)) : Declares before code after := by
  cases entry with
  | none =>
    obtain ⟨rfl, rfl⟩ := Noting.close_ok.1 h
    exact ofCalls _ rfl
  | some entry => exact ofStart h

theorem ofCloseIf {noting : Noting NotedCode} {closeSection : Bool}
    (h : (noting ++ if closeSection then Noting.close else pure []) before = .ok (code, after))
    (hcode : ∀ code after, noting before = .ok (code, after) → Declares before code after) :
    Declares before code after := by
  obtain ⟨front, last, hfront, ⟨_, rfl, rfl⟩ | ⟨_, rfl, rfl⟩⟩ := Noting.closeIf_ok h
  · exact hcode _ _ hfront
  · exact (hcode _ _ hfront).append (ofCalls _ rfl)

end Declares

/-! ## Statements -/

private theorem declares_arrival {held : Option LockGroup} {label : Label} {enters : Bool}
    (hlabel : label.name ∉ before.labels) :
    Declares before [.leaf (.remark ⟨held, some label, .arrives label enters⟩), .label label.name]
      { before with labels := label.name :: before.labels } :=
  ⟨rfl, rfl, fun hnodup => List.nodup_cons.2 ⟨hlabel, hnodup⟩⟩

mutual

theorem declares_statement {definitions : Definitions} {targets : List String}
    {label? : Option Label} (statement : Statement) {before after : Progress} {code : NotedCode}
    (h : noteStatement definitions targets label? statement before = .ok (code, after)) :
    Declares before code after := by
  cases statement with
  | labeled mark label body =>
    obtain ⟨front, reached, opening, started, inner, hfront, hlabel, hstart, hinner, rfl⟩ :=
      noteStatement_labeled_ok h
    have hfront : Declares before front reached := by
      split at hfront
      · obtain ⟨rfl, rfl⟩ := Noting.close_ok.1 hfront
        exact .ofCalls _ rfl
      · obtain ⟨rfl, rfl⟩ := Noting.pure_ok.1 hfront
        exact .refl reached
    exact hfront.append ((declares_arrival hlabel).append
      ((Declares.ofStart hstart).append (declares_statements body hinner)))
  | whileDo mark condition body =>
    obtain ⟨text, inner, between, back, _, hinner, hback, _, rfl⟩ := noteStatement_whileDo_ok h
    have hbody := (declares_statements body hinner).append (.ofEndLoop hback)
    refine hbody.congr rfl ?_ ?_
    · simp [Code.listLeaves, Code.leaves]
    · simp [Code.listLabelNames, Code.labelNames]
  | ifElse mark condition yes no =>
    obtain ⟨text, yesCode, yesLast, noCode, noLast, _, hyes, hno, _, rfl, rfl⟩ :=
      noteStatement_ifElse_ok h
    have hyes := Declares.ofCloseIf hyes fun _ _ => declares_statements yes
    have hno := Declares.ofCloseIf hno fun _ _ => declares_statements no
    have hboth : Declares before (yesCode ++ noCode) noLast := hyes.append hno
    refine hboth.congr rfl ?_ ?_
    · simp [Code.listLeaves, Code.leaves]
    · simp [Code.listLabelNames, Code.labelNames]
  | either mark cases =>
    obtain ⟨codes, first, last, hcases, ⟨_, rfl⟩, rfl⟩ := noteStatement_either_ok h
    refine (declares_cases cases hcases).congr rfl ?_ ?_
    · simp [Code.listLeaves, Code.leaves, Code.listLeaves_flatten]
    · simp [Code.listLabelNames, Code.labelNames, Code.listLabelNames_flatten]
  | assign mark pairs =>
    obtain ⟨⟨_, rfl⟩, lines, hcode, hlines⟩ := noteStatement_assign_ok h
    have hlines : Declares before lines _ := .ofLines hlines rfl
    rcases hcode with rfl | rfl
    · exact hlines
    · refine hlines.congr rfl ?_ ?_
      · simp [Code.listLeaves, Code.leaves]
      · simp [Code.listLabelNames, Code.labelNames]
  | leave mark =>
    obtain ⟨rfl, rfl⟩ := noteStatement_leave_ok h
    exact (Declares.ofCalls _ rfl).append ((Declares.refl _).congr rfl rfl rfl)
  | skip mark =>
    obtain ⟨rfl, rfl⟩ := noteStatement_skip_ok h
    exact .refl after
  | call mark target arguments =>
    obtain ⟨text, _, rfl, rfl⟩ := noteStatement_call_ok h
    exact (Declares.ofCalls _ rfl).append ((Declares.refl _).congr rfl rfl rfl)
  | macroCall mark target arguments => cases h
  | withDo mark bindings body =>
    obtain ⟨front, inner, _, hfront, hinner, rfl⟩ := noteStatement_withDo_ok h
    have hfront : Declares before front before := .ofLines hfront rfl
    refine (hfront.append (declares_statements body hinner)).congr rfl ?_ ?_
    · simp [Code.listLeaves, Code.leaves]
    · simp [Code.listLabelNames, Code.labelNames]
  | print mark value =>
    obtain ⟨⟨_, rfl⟩, hlines⟩ := noteStatement_print_ok h
    exact .ofLines hlines rfl
  | assert mark value =>
    obtain ⟨condition, text, _, rfl, rfl⟩ := noteStatement_assert_ok h
    exact (Declares.refl after).congr rfl rfl rfl
  | await mark value =>
    obtain ⟨text, label, name, _, _, rfl, rfl⟩ := noteStatement_await_ok h
    have hretry : Declares before (NotedCode.ofCalls before.tracker.aborting ++
        [.leaf (.remark ⟨none, label?, .retries⟩), .goto name]) before :=
      (Declares.ofCalls _ rfl).append ((Declares.refl before).congr rfl rfl rfl)
    refine hretry.congr rfl ?_ ?_
    · simp [Code.listLeaves, Code.leaves]
    · simp [Code.listLabelNames, Code.labelNames]
  | goto mark target =>
    rcases noteStatement_goto_ok h with ⟨rfl, rfl⟩ | ⟨rfl, rfl⟩
    · exact (Declares.ofCalls _ rfl).append ((Declares.refl _).congr rfl rfl rfl)
    · exact (Declares.ofCalls _ rfl).append ((Declares.refl _).congr rfl rfl rfl)

theorem declares_statements {definitions : Definitions} {targets : List String}
    {label? : Option Label} (statements : List Statement) {before after : Progress}
    {code : NotedCode}
    (h : noteStatements definitions targets label? statements before = .ok (code, after)) :
    Declares before code after := by
  cases statements with
  | nil =>
    obtain ⟨rfl, rfl⟩ := Noting.pure_ok.1 h
    exact .refl after
  | cons statement rest =>
    obtain ⟨front, between, back, hfront, hback, rfl⟩ := Noting.append_ok.1 h
    exact (declares_statement statement hfront).append (declares_statements rest hback)

/-- The cases of a choice declare their labels one after the other. -/
theorem declares_cases {definitions : Definitions} {targets : List String}
    {label? : Option Label} {closeSection : Bool} {first result : Option Tracker}
    (cases : List (List Statement)) {before after : Progress} {codes : List NotedCode}
    (h : noteCases definitions targets label? closeSection first cases before =
      .ok ((codes, result), after)) : Declares before codes.flatten after := by
  cases cases with
  | nil =>
    obtain ⟨heq, rfl⟩ := Noting.pure_ok.1 h
    injection heq with hcodes hresult
    subst hcodes hresult
    exact .refl after
  | cons body rest =>
    obtain ⟨bodyCode, last, others, hbody, _, hrest, rfl⟩ := noteCases_cons_ok h
    have hbody := Declares.ofCloseIf hbody fun _ _ => declares_statements body
    have hrest := declares_cases rest hrest
    exact hbody.append hrest

end

/-- A whole function declares its labels. -/
theorem FunctionContext.noted_labels {context : FunctionContext} {imports : Imports}
    {owner : Uid} {locals : List VariableDecl} {body : List Statement}
    (h : context.noted imports owner locals body = .ok (code, after)) :
    Declares (context.start imports owner) code after := by
  obtain ⟨front, inner, last, hfront, hinner, rfl, rfl⟩ := noted_ok h
  exact (Declares.ofPlainLines hfront).append
    ((declares_statements body hinner).append (.ofCalls _ rfl))

/-- Every label of a function is arrived at once. -/
theorem FunctionContext.noted_declares {context : FunctionContext} {imports : Imports}
    {owner : Uid} {locals : List VariableDecl} {body : List Statement}
    (h : context.noted imports owner locals body = .ok (code, after)) :
    arrivalNames (Code.listLeaves code) = Code.listLabelNames code ∧
      (Code.listLabelNames code).Nodup := by
  obtain ⟨hnames, hlabels, hnodup⟩ := noted_labels h
  refine ⟨hnames, ?_⟩
  have hlast := hnodup List.nodup_nil
  rw [hlabels] at hlast
  have hreverse := (List.nodup_append.1 hlast).1
  exact (List.pairwise_reverse.1 hreverse).imp Ne.symm

end Declares

end PlusCalGo.Go
