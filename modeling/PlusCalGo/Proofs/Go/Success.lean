import PlusCalGo.Proofs.Go.Agreement

/-!
# Successful steps

What is known when a step of lowering with remarks goes well.
-/

namespace PlusCalGo.Go

open Noting

namespace Tracker

/-- Compatible trackers have the same group open in the step of the same label. -/
theorem checkCompatible_ok {first second : Tracker}
    (h : first.checkCompatible second = .ok ()) :
    first.openGroup = second.openGroup ∧ first.label = second.label := by
  unfold checkCompatible at h
  split at h
  · simp at h
  split at h
  · simp at h
  split at h
  · simp at h
  split at h
  · simp at h
  split at h
  · simp at h
  split at h
  · simp at h
  rename_i hgroup huid hname
  refine ⟨by simpa using hgroup, ?_⟩
  have huid : first.labelUid = second.labelUid := by simpa using huid
  have hname : first.labelName = second.labelName := by simpa using hname
  unfold labelUid at huid
  unfold labelName at hname
  cases hfirst : first.label with
  | none =>
    rw [hfirst] at huid
    exact (Option.map_eq_none_iff.1 huid.symm).symm
  | some pair =>
    rw [hfirst] at huid hname
    obtain ⟨other, hother, hsame⟩ := Option.map_eq_some_iff.1 huid.symm
    rw [hother] at hname ⊢
    have hnames : pair.2 = other.2 := by simpa using hname
    exact congrArg some (Prod.ext hsame.symm hnames)

end Tracker

namespace Noting

variable {α β : Type} {progress after : Progress}

theorem bind_ok {first : Noting α} {next : α → Noting β} {result : β} :
    (first >>= next) progress = .ok (result, after) ↔
      ∃ value between, first progress = .ok (value, between) ∧
        next value between = .ok (result, after) := by
  rw [bind_apply]
  cases hfirst : first progress with
  | error problem => simp
  | ok pair =>
    obtain ⟨value, between⟩ := pair
    constructor
    · intro h
      exact ⟨value, between, rfl, h⟩
    · intro h
      rcases h with ⟨_, _, hpair, h⟩
      injection hpair with hpair
      injection hpair with hvalue hbetween
      rw [hvalue, hbetween]
      exact h

theorem pure_ok {value result : α} :
    (pure value : Noting α) progress = .ok (result, after) ↔ result = value ∧ after = progress := by
  rw [pure_apply]
  constructor
  · intro h
    injection h with h
    injection h with hvalue hprogress
    exact ⟨hvalue.symm, hprogress.symm⟩
  · intro h
    rcases h with ⟨rfl, rfl⟩
    rfl

theorem append_ok {first second : Noting NotedCode} {code : NotedCode} :
    (first ++ second) progress = .ok (code, after) ↔
      ∃ front between back, first progress = .ok (front, between) ∧
        second between = .ok (back, after) ∧ code = front ++ back := by
  simp only [append_eq, bind_ok, pure_ok]
  constructor
  · intro h
    rcases h with ⟨front, between, hfirst, back, last, hsecond, rfl, rfl⟩
    exact ⟨front, between, back, hfirst, hsecond, rfl⟩
  · intro h
    rcases h with ⟨front, between, back, hfirst, hsecond, rfl⟩
    exact ⟨front, between, hfirst, back, after, hsecond, rfl, rfl⟩

theorem attempt_ok {result : Except Diagnostic α} {value : α} :
    attempt result progress = .ok (value, after) ↔ result = .ok value ∧ after = progress := by
  cases result with
  | error problem => simp [attempt]
  | ok found =>
    simp only [attempt, Except.ok.injEq, Prod.mk.injEq]
    constructor
    · intro h
      rcases h with ⟨rfl, rfl⟩
      exact ⟨rfl, rfl⟩
    · intro h
      rcases h with ⟨rfl, rfl⟩
      exact ⟨rfl, rfl⟩

theorem tracker_ok {value : Tracker} :
    tracker progress = .ok (value, after) ↔ value = progress.tracker ∧ after = progress := by
  simp only [tracker, Except.ok.injEq, Prod.mk.injEq]
  constructor
  · intro h
    rcases h with ⟨rfl, rfl⟩
    exact ⟨rfl, rfl⟩
  · intro h
    rcases h with ⟨rfl, rfl⟩
    exact ⟨rfl, rfl⟩

theorem setTracker_ok {tracker : Tracker} {result : Unit} :
    setTracker tracker progress = .ok (result, after) ↔
      after = { progress with tracker := tracker } := by
  simp only [setTracker, Except.ok.injEq, Prod.mk.injEq, true_and]
  exact eq_comm

theorem setImports_ok {change : Imports → Imports} {result : Unit} :
    setImports change progress = .ok (result, after) ↔
      after = { progress with imports := change progress.imports } := by
  simp only [setImports, Except.ok.injEq, Prod.mk.injEq, true_and]
  exact eq_comm

theorem takeTemporaries_ok {count first : Nat} :
    takeTemporaries count progress = .ok (first, after) ↔
      first = progress.nextTemporary ∧
        after = { progress with nextTemporary := progress.nextTemporary + count } := by
  simp only [takeTemporaries, Except.ok.injEq, Prod.mk.injEq]
  rw [eq_comm, @eq_comm _ after]

theorem remark_ok {label? : Option Label} {subject : Subject} {code : NotedCode} :
    remark label? subject progress = .ok (code, after) ↔
      code = [.leaf (.remark ⟨progress.tracker.openGroup, label?, subject⟩)] ∧
        after = progress := by
  simp only [remark, Except.ok.injEq, Prod.mk.injEq]
  rw [eq_comm, @eq_comm _ after]

theorem emit_ok {added : Code Note} {code : NotedCode} :
    emit added progress = .ok (code, after) ↔ code = [added] ∧ after = progress :=
  pure_ok

theorem declareLabel_ok {name : String} {code : NotedCode} :
    declareLabel name progress = .ok (code, after) ↔
      name ∉ progress.labels ∧ code = [.label name] ∧
        after = { progress with labels := name :: progress.labels } := by
  unfold declareLabel
  split
  · rename_i hname
    simp [hname]
  · rename_i hname
    simp only [Except.ok.injEq, Prod.mk.injEq]
    rw [eq_comm, @eq_comm _ after]
    exact (and_iff_right hname).symm

theorem goTo_ok {name : String} {code : NotedCode} :
    goTo name progress = .ok (code, after) ↔
      code = [.goto name] ∧ after = { progress with targets := name :: progress.targets } := by
  simp only [goTo, Except.ok.injEq, Prod.mk.injEq]
  rw [eq_comm, @eq_comm _ after]

theorem close_ok {code : NotedCode} :
    close progress = .ok (code, after) ↔
      code = .ofCalls progress.tracker.closing ∧
        after = { progress with tracker := progress.tracker.idle } := by
  simp only [close, Except.ok.injEq, Prod.mk.injEq]
  rw [eq_comm, @eq_comm _ after]

/-- Starting a step leaves all as it is when the group is open already, or else closes the open
section and opens that of the label. -/
theorem start_ok {label : Uid} {name : String} {code : NotedCode}
    (h : start label name progress = .ok (code, after)) :
    (progress.tracker.continues label = true ∧ code = [] ∧ after = progress) ∨
      (progress.tracker.continues label = false ∧ name ∈ progress.labels ∧
        code = .ofCalls (progress.tracker.closing ++ progress.tracker.opening label) ∧
        after = { progress with tracker := progress.tracker.entered label name }) := by
  unfold start at h
  split at h
  · rename_i hcontinues
    injection h with h
    injection h with hcode hafter
    exact .inl ⟨hcontinues, hcode.symm, hafter.symm⟩
  · rename_i hcontinues
    split at h
    · rename_i hname
      injection h with h
      injection h with hcode hafter
      exact .inr ⟨by simpa using hcontinues, hname, hcode.symm, hafter.symm⟩
    · simp at h

theorem abort_ok {label? : Option Label} {code : NotedCode}
    (h : abort label? progress = .ok (code, after)) :
    ∃ label name, progress.tracker.label = some (label, name) ∧
      code = NotedCode.ofCalls progress.tracker.aborting ++
        [.leaf (.remark ⟨none, label?, .retries⟩), .goto name] ∧
      after = { progress with
        tracker := progress.tracker.idle, targets := name :: progress.targets } := by
  unfold abort at h
  split at h
  · simp at h
  · rename_i label name hlabel
    injection h with h
    injection h with hcode hafter
    exact ⟨label, name, hlabel, hcode.symm, hafter.symm⟩

theorem arrival_ok {label : Label} {code : NotedCode} :
    arrival label progress = .ok (code, after) ↔
      code = [.leaf (.remark ⟨progress.tracker.openGroup, some label,
        .arrives label !progress.tracker.continues label.uid⟩)] ∧ after = progress :=
  remark_ok

/-- At the end of some code the section is closed or left as it is. -/
theorem closeIf_ok {closeSection : Bool} {body : Noting NotedCode} {code : NotedCode}
    (h : (body ++ if closeSection then close else pure []) progress = .ok (code, after)) :
    ∃ front last, body progress = .ok (front, last) ∧
      ((closeSection = false ∧ code = front ∧ after = last) ∨
        (closeSection = true ∧ code = front ++ NotedCode.ofCalls last.tracker.closing ∧
          after = { last with tracker := last.tracker.idle })) := by
  obtain ⟨front, last, back, hfront, hback, rfl⟩ := append_ok.1 h
  refine ⟨front, last, hfront, ?_⟩
  cases closeSection with
  | false =>
    obtain ⟨rfl, rfl⟩ := pure_ok.1 hback
    exact .inl ⟨rfl, List.append_nil front, rfl⟩
  | true =>
    obtain ⟨rfl, rfl⟩ := close_ok.1 hback
    exact .inr ⟨rfl, rfl, rfl⟩

/-- At the end of some code nothing is closed. -/
theorem unclosed_ok {closeSection : Bool} {body : Noting NotedCode} {code : NotedCode}
    (hopen : closeSection = false)
    (h : (body ++ if closeSection then close else pure []) progress = .ok (code, after)) :
    body progress = .ok (code, after) := by
  obtain ⟨front, last, hfront, ⟨_, rfl, rfl⟩ | ⟨hclose, _⟩⟩ := closeIf_ok h
  · exact hfront
  · rw [hopen] at hclose
    cases hclose

/-- A branch is made in a run of its own, and the tracker is put back after it. -/
theorem branch_ok {closeSection : Bool} {body : Noting NotedCode} {code : NotedCode}
    {left : Tracker} :
    branch closeSection body progress = .ok ((code, left), after) ↔
      ∃ last, (body ++ if closeSection then close else pure []) progress = .ok (code, last) ∧
        left = last.tracker ∧ after = { last with tracker := progress.tracker } := by
  simp only [branch, bind_ok, tracker_ok, setTracker_ok, pure_ok, Prod.mk.injEq]
  constructor
  · intro h
    rcases h with ⟨before, _, ⟨rfl, rfl⟩, found, last, hbody, _, _, ⟨rfl, rfl⟩, _, _, rfl,
      ⟨rfl, rfl⟩, rfl⟩
    exact ⟨_, hbody, rfl, rfl⟩
  · intro h
    rcases h with ⟨last, hbody, rfl, rfl⟩
    exact ⟨progress.tracker, progress, ⟨rfl, rfl⟩, code, last, hbody, last.tracker, last,
      ⟨rfl, rfl⟩, (), _, rfl, ⟨rfl, rfl⟩, rfl⟩

end Noting

/-! ## Lines -/

/-- A text that is no jump of its own. -/
def PlainLine (text : String) : Prop := text ≠ "return" ∧ text ≠ "break"

theorem plainLine_of_mem {text : String} (sign : Char) (hmem : sign ∈ text.toList)
    (hsign : sign ∉ "return".toList ++ "break".toList) : PlainLine text := by
  refine ⟨?_, ?_⟩
  · rintro rfl
    exact hsign (List.mem_append_left _ hmem)
  · rintro rfl
    exact hsign (List.mem_append_right _ hmem)

/-- Expressions and the line that evaluates them. -/
structure Evaluation where
  expressions : List Expression
  text : String

/-- The line behind its remark. -/
def Evaluation.code (held : Option LockGroup) (label? : Option Label) (line : Evaluation) :
    NotedCode :=
  [.leaf (.remark ⟨held, label?, .evaluates line.expressions⟩), .line line.text]

/-- The code is made of plain lines that evaluate expressions of which a property holds. -/
def Evaluates (held : Option LockGroup) (label? : Option Label) (property : Expression → Prop)
    (code : NotedCode) : Prop :=
  ∃ lines : List Evaluation, code = lines.flatMap (Evaluation.code held label?) ∧
    ∀ line ∈ lines, PlainLine line.text ∧ ∀ expression ∈ line.expressions, property expression

namespace Evaluates

variable {held : Option LockGroup} {label? : Option Label} {property : Expression → Prop}

theorem nil : Evaluates held label? property [] := ⟨[], rfl, by simp⟩

theorem append {first second : NotedCode} (hfirst : Evaluates held label? property first)
    (hsecond : Evaluates held label? property second) :
    Evaluates held label? property (first ++ second) := by
  obtain ⟨front, rfl, hfront⟩ := hfirst
  obtain ⟨back, rfl, hback⟩ := hsecond
  refine ⟨front ++ back, by simp, ?_⟩
  intro line hline
  rcases List.mem_append.1 hline with hline | hline
  · exact hfront line hline
  · exact hback line hline

theorem one {expressions : List Expression} {text : String} (htext : PlainLine text)
    (h : ∀ expression ∈ expressions, property expression) :
    Evaluates held label? property
      [.leaf (.remark ⟨held, label?, .evaluates expressions⟩), .line text] := by
  refine ⟨[⟨expressions, text⟩], rfl, ?_⟩
  intro line hline
  rw [List.mem_singleton.1 hline]
  exact ⟨htext, h⟩

theorem mono {other : Expression → Prop} {code : NotedCode}
    (hcode : Evaluates held label? property code)
    (h : ∀ expression, property expression → other expression) :
    Evaluates held label? other code := by
  obtain ⟨lines, rfl, hlines⟩ := hcode
  exact ⟨lines, rfl, fun line hline =>
    ⟨(hlines line hline).1, fun expression hmem => h _ ((hlines line hline).2 expression hmem)⟩⟩

theorem flatMap {ι : Type} {make : ι → NotedCode} {entries : List ι}
    (h : ∀ entry ∈ entries, Evaluates held label? property (make entry)) :
    Evaluates held label? property (entries.flatMap make) := by
  induction entries with
  | nil => exact nil
  | cons entry rest ih =>
    rw [List.flatMap_cons]
    exact (h entry List.mem_cons_self).append
      (ih fun other hother => h other (List.mem_cons_of_mem entry hother))

end Evaluates

theorem pairTexts_ok {definitions : Definitions} {pairs : List AssignmentPair}
    {texts : List (AssignmentPair × String × String)}
    (h : pairTexts definitions pairs = .ok texts) : texts.map Prod.fst = pairs := by
  induction pairs generalizing texts with
  | nil =>
    injection h with h
    rw [← h]
    rfl
  | cons pair rest ih =>
    simp only [pairTexts, bind, Except.bind] at h
    split at h
    · simp at h
    split at h
    · simp at h
    split at h
    · simp at h
    rename_i hrest
    injection h with h
    rw [← h, List.map_cons, ih hrest]

private theorem plainLine_binding (name text : String) : PlainLine (name ++ " := " ++ text) :=
  plainLine_of_mem ' ' (by simp) (by decide)

private theorem plainLine_update (target value : String) : PlainLine (target ++ " = " ++ value) :=
  plainLine_of_mem ' ' (by simp) (by decide)

private theorem plainLine_unused (name : String) : PlainLine ("_ = " ++ name) :=
  plainLine_of_mem ' ' (by simp) (by decide)

private theorem evaluates_simultaneous (held : Option LockGroup) (label? : Option Label)
    (first : Nat) (texts : List (AssignmentPair × String × String)) :
    ∃ lines, notedSimultaneous (fun expressions =>
        .leaf (.remark ⟨held, label?, .evaluates expressions⟩)) first texts = .block lines ∧
      Evaluates held label?
        (fun expression => ∃ pair ∈ texts.map Prod.fst,
          expression = pair.lhs ∨ expression = pair.rhs) lines := by
  have hmem {temporary : String} {pair : AssignmentPair} {target value : String}
      (h : (temporary, pair, target, value) ∈ texts.zipIdx.map fun entry =>
        ("pgoTmp" ++ Nat.repr (first + entry.2), entry.1)) : pair ∈ texts.map Prod.fst := by
    obtain ⟨⟨entry, index⟩, hentry, heq⟩ := List.mem_map.1 h
    injection heq with _ heq
    have heq : entry = (pair, target, value) := heq
    have hentry : entry ∈ texts := (List.mem_zipIdx' hentry).2 ▸ List.getElem_mem _
    refine List.mem_map.2 ⟨entry, hentry, ?_⟩
    rw [heq]
  refine ⟨_, rfl, Evaluates.append (Evaluates.flatMap ?_) (Evaluates.flatMap ?_)⟩
  · rintro ⟨temporary, pair, target, value⟩ hentry
    apply Evaluates.one (plainLine_binding _ _)
    intro expression hexpression
    exact ⟨pair, hmem hentry, .inr (List.mem_singleton.1 hexpression)⟩
  · rintro ⟨temporary, pair, target, value⟩ hentry
    apply Evaluates.one (plainLine_update _ _)
    intro expression hexpression
    exact ⟨pair, hmem hentry, .inl (List.mem_singleton.1 hexpression)⟩

/-- An assignment is made of lines, or of a block of them. -/
theorem noteAssign_ok {label? : Option Label} {texts : List (AssignmentPair × String × String)}
    {progress after : Progress} {code : NotedCode}
    (h : noteAssign label? texts progress = .ok (code, after)) :
    (∃ next, after = { progress with nextTemporary := next }) ∧
      ∃ lines, (code = lines ∨ code = [.block lines]) ∧
        Evaluates progress.tracker.openGroup label?
          (fun expression => ∃ pair ∈ texts.map Prod.fst,
            expression = pair.lhs ∨ expression = pair.rhs) lines := by
  have hblock (h : (do
      let first ← takeTemporaries texts.length
      let held := (← tracker).openGroup
      emit (notedSimultaneous (fun expressions =>
        .leaf (.remark ⟨held, label?, .evaluates expressions⟩)) first texts)) progress =
        .ok (code, after)) : (∃ next, after = { progress with nextTemporary := next }) ∧
      ∃ lines, (code = lines ∨ code = [.block lines]) ∧
        Evaluates progress.tracker.openGroup label?
          (fun expression => ∃ pair ∈ texts.map Prod.fst,
            expression = pair.lhs ∨ expression = pair.rhs) lines := by
    simp only [bind_ok, takeTemporaries_ok, tracker_ok, emit_ok] at h
    obtain ⟨first, _, ⟨rfl, rfl⟩, _, _, ⟨rfl, rfl⟩, rfl, rfl⟩ := h
    obtain ⟨lines, hlines, hevaluates⟩ := evaluates_simultaneous progress.tracker.openGroup label?
      progress.nextTemporary texts
    exact ⟨⟨_, rfl⟩, lines, .inr (by rw [hlines]), hevaluates⟩
  rcases texts with _ | ⟨⟨pair, target, value⟩, _ | ⟨second, rest⟩⟩
  · exact hblock h
  · simp only [noteAssign, append_ok, remark_ok, emitLine, emit_ok] at h
    obtain ⟨_, _, _, ⟨rfl, rfl⟩, ⟨rfl, rfl⟩, rfl⟩ := h
    refine ⟨⟨_, rfl⟩, _, .inl rfl, Evaluates.one (plainLine_update _ _) ?_⟩
    intro expression hexpression
    exact ⟨pair, by simp, by simpa using hexpression⟩
  · exact hblock h

theorem noteBindings_ok {definitions : Definitions} {label? : Option Label}
    {bindings : List VariableDecl} {progress after : Progress} {code : NotedCode}
    (h : noteBindings definitions label? bindings progress = .ok (code, after)) :
    after = progress ∧ Evaluates progress.tracker.openGroup label?
      (fun expression => ∃ decl ∈ bindings, decl.value = some expression) code := by
  induction bindings generalizing code with
  | nil =>
    obtain ⟨rfl, rfl⟩ := pure_ok.1 h
    exact ⟨rfl, Evaluates.nil⟩
  | cons decl rest ih =>
    simp only [noteBindings] at h
    cases hvalue : decl.value with
    | none =>
      rw [hvalue] at h
      cases h
    | some value =>
      rw [hvalue] at h
      simp only [bind_ok, attempt_ok, append_ok, remark_ok, emitLine, emit_ok] at h
      obtain ⟨text, _, ⟨_, rfl⟩, _, _, _, ⟨rfl, rfl⟩, ⟨_, _, _, ⟨rfl, rfl⟩, ⟨_, _, _, ⟨rfl, rfl⟩,
        ⟨_, _, back, ⟨rfl, rfl⟩, hrest, rfl⟩, rfl⟩, rfl⟩, rfl⟩ := h
      obtain ⟨rfl, hback⟩ := ih hrest
      refine ⟨rfl, (Evaluates.one (plainLine_binding _ _) ?_).append
        ((Evaluates.one (plainLine_unused _) (by simp)).append (hback.mono ?_))⟩
      · intro expression hexpression
        rw [List.mem_singleton.1 hexpression]
        exact ⟨decl, List.mem_cons_self, hvalue⟩
      · rintro expression ⟨other, hmem, hother⟩
        exact ⟨other, List.mem_cons_of_mem decl hmem, hother⟩

/-! ## Statements -/

section Statements

variable {definitions : Definitions} {targets : List String} {label? : Option Label}
  {mark : Mark} {progress after : Progress} {code : NotedCode}

theorem noteStatement_labeled_ok {label : Label} {body : List Statement}
    (h : noteStatement definitions targets label? (.labeled mark label body) progress =
      .ok (code, after)) :
    ∃ front reached opening started inner,
      (if label.name ∈ targets then close else pure []) progress = .ok (front, reached) ∧
      label.name ∉ reached.labels ∧
      start label.uid label.name { reached with labels := label.name :: reached.labels } =
        .ok (opening, started) ∧
      noteStatements definitions targets (some label) body started = .ok (inner, after) ∧
      code = front ++ (.leaf (.remark ⟨reached.tracker.openGroup, some label,
        .arrives label !reached.tracker.continues label.uid⟩) :: .label label.name ::
          (opening ++ inner)) := by
  simp only [noteStatement, append_ok, arrival_ok, declareLabel_ok] at h
  obtain ⟨front, reached, _, hfront, ⟨_, _, _, ⟨rfl, rfl⟩, ⟨_, _, _, ⟨hlabel, rfl, rfl⟩,
    ⟨opening, started, inner, hstart, hinner, rfl⟩, rfl⟩, rfl⟩, rfl⟩ := h
  exact ⟨front, _, opening, started, inner, hfront, hlabel, hstart, hinner, rfl⟩

theorem noteStatement_whileDo_ok {condition : Expression} {body : List Statement}
    (h : noteStatement definitions targets label? (.whileDo mark condition body) progress =
      .ok (code, after)) :
    ∃ text inner between back, condition.toGo definitions = .ok text ∧
      noteStatements definitions targets label? body progress = .ok (inner, between) ∧
      endLoop progress.tracker.label between = .ok (back, after) ∧
      after.tracker.checkCompatible progress.tracker = .ok () ∧
      code = [.loop (.leaf (.remark ⟨progress.tracker.openGroup, label?,
          .evaluates [condition]⟩) :: .branch ("!" ++ text) [.line "break"] [] ::
        (inner ++ back))] := by
  simp only [noteStatement, bind_ok, append_ok, attempt_ok, tracker_ok, remark_ok, emit_ok,
    pure_ok] at h
  obtain ⟨text, _, ⟨htext, rfl⟩, _, _, ⟨rfl, rfl⟩, _, last, ⟨_, _, _, ⟨rfl, rfl⟩, ⟨_, _, _,
    ⟨rfl, rfl⟩, ⟨inner, between, back, hinner, hback, rfl⟩, rfl⟩, rfl⟩, _, _, ⟨rfl, rfl⟩, _, _,
    ⟨hcheck, rfl⟩, rfl, rfl⟩ := h
  exact ⟨text, inner, between, back, htext, hinner, hback, hcheck, rfl⟩

theorem noteStatement_ifElse_ok {condition : Expression} {yes no : List Statement}
    (h : noteStatement definitions targets label? (.ifElse mark condition yes no) progress =
      .ok (code, after)) :
    ∃ text yesCode yesLast noCode noLast, condition.toGo definitions = .ok text ∧
      (noteStatements definitions targets label? yes ++
        if Statement.anyTransfersControl yes || Statement.anyTransfersControl no then close
        else pure []) progress = .ok (yesCode, yesLast) ∧
      (noteStatements definitions targets label? no ++
        if Statement.anyTransfersControl yes || Statement.anyTransfersControl no then close
        else pure []) { yesLast with tracker := progress.tracker } = .ok (noCode, noLast) ∧
      yesLast.tracker.checkCompatible noLast.tracker = .ok () ∧
      after = { noLast with tracker := yesLast.tracker } ∧
      code = [.leaf (.remark ⟨progress.tracker.openGroup, label?, .evaluates [condition]⟩),
        .branch text yesCode noCode] := by
  simp only [noteStatement, bind_ok, attempt_ok, remark_ok, setTracker_ok, pure_ok] at h
  obtain ⟨text, _, ⟨htext, rfl⟩, _, _, ⟨rfl, rfl⟩, ⟨yesCode, _⟩, _, hyesBranch, ⟨noCode, _⟩, _,
    hnoBranch, _, _, ⟨hcheck, rfl⟩, _, _, rfl, rfl, rfl⟩ := h
  obtain ⟨yesLast, hyes, rfl, rfl⟩ := branch_ok.1 hyesBranch
  obtain ⟨noLast, hno, rfl, rfl⟩ := branch_ok.1 hnoBranch
  exact ⟨text, yesCode, yesLast, noCode, noLast, htext, hyes, hno, hcheck, rfl, rfl⟩

theorem noteStatement_either_ok {cases : List (List Statement)}
    (h : noteStatement definitions targets label? (.either mark cases) progress =
      .ok (code, after)) :
    ∃ codes first last, noteCases definitions targets label?
        (Statement.anyCaseTransfersControl cases) none cases progress = .ok ((codes, first), last) ∧
      (∃ imports, after = { last with tracker := first.getD last.tracker, imports := imports }) ∧
      code = [.leaf (.remark ⟨progress.tracker.openGroup, label?, .evaluates []⟩),
        .switch ("rand.Intn(" ++ Nat.repr cases.length ++ ")") codes] := by
  simp only [noteStatement, bind_ok, remark_ok] at h
  obtain ⟨_, _, ⟨rfl, rfl⟩, ⟨codes, first⟩, last, hcases, hrest⟩ := h
  cases first with
  | none =>
    simp only [bind_ok, setImports_ok, pure_ok] at hrest
    obtain ⟨_, _, rfl, rfl, rfl⟩ := hrest
    exact ⟨codes, none, last, hcases, ⟨_, rfl⟩, rfl⟩
  | some first =>
    simp only [bind_ok, setTracker_ok, setImports_ok, pure_ok] at hrest
    obtain ⟨_, _, rfl, _, _, rfl, rfl, rfl⟩ := hrest
    exact ⟨codes, some first, last, hcases, ⟨_, rfl⟩, rfl⟩

/-- The cases of a choice begin with the tracker of the first one, and end in compatible ones. -/
theorem noteCases_cons_ok {closeSection : Bool} {first result : Option Tracker}
    {body : List Statement} {rest : List (List Statement)} {codes : List NotedCode}
    (h : noteCases definitions targets label? closeSection first (body :: rest) progress =
      .ok ((codes, result), after)) :
    ∃ bodyCode last others, (noteStatements definitions targets label? body ++
        if closeSection then close else pure []) progress = .ok (bodyCode, last) ∧
      (∀ tracker ∈ first, tracker.checkCompatible last.tracker = .ok ()) ∧
      noteCases definitions targets label? closeSection (some (first.getD last.tracker)) rest
        { last with tracker := progress.tracker } = .ok ((others, result), after) ∧
      codes = bodyCode :: others := by
  simp only [noteCases, bind_ok] at h
  obtain ⟨⟨bodyCode, _⟩, _, hbranch, h⟩ := h
  obtain ⟨last, hbody, rfl, rfl⟩ := branch_ok.1 hbranch
  cases first with
  | none =>
    simp only [bind_ok, pure_ok] at h
    obtain ⟨⟨others, _⟩, _, hrest, heq, rfl⟩ := h
    injection heq with hcodes hresult
    subst hcodes hresult
    exact ⟨bodyCode, last, others, hbody, by simp, hrest, rfl⟩
  | some first =>
    simp only [bind_ok, attempt_ok, pure_ok] at h
    obtain ⟨_, _, ⟨hcheck, rfl⟩, ⟨others, _⟩, _, hrest, heq, rfl⟩ := h
    injection heq with hcodes hresult
    subst hcodes hresult
    refine ⟨bodyCode, last, others, hbody, ?_, hrest, rfl⟩
    intro tracker htracker
    cases htracker
    exact hcheck

theorem noteCases_some_ok {closeSection : Bool} {first : Tracker} {result : Option Tracker}
    {cases : List (List Statement)} {codes : List NotedCode}
    (h : noteCases definitions targets label? closeSection (some first) cases progress =
      .ok ((codes, result), after)) : result = some first := by
  induction cases generalizing progress codes with
  | nil =>
    obtain ⟨heq, _⟩ := pure_ok.1 h
    injection heq
  | cons body rest ih =>
    obtain ⟨_, _, _, _, _, hrest, _⟩ := noteCases_cons_ok h
    exact ih hrest

theorem noteStatement_assign_ok {pairs : List AssignmentPair}
    (h : noteStatement definitions targets label? (.assign mark pairs) progress =
      .ok (code, after)) :
    (∃ next, after = { progress with nextTemporary := next }) ∧
      ∃ lines, (code = lines ∨ code = [.block lines]) ∧
        Evaluates progress.tracker.openGroup label?
          (fun expression => ∃ pair ∈ pairs, expression = pair.lhs ∨ expression = pair.rhs)
          lines := by
  simp only [noteStatement, bind_ok, attempt_ok] at h
  obtain ⟨texts, _, ⟨htexts, rfl⟩, hassign⟩ := h
  rw [← pairTexts_ok htexts]
  exact noteAssign_ok hassign

theorem noteStatement_call_ok {target : String} {arguments : List Expression}
    (h : noteStatement definitions targets label? (.call mark target arguments) progress =
      .ok (code, after)) :
    ∃ text, PlainLine text ∧ after = { progress with tracker := progress.tracker.idle } ∧
      code = NotedCode.ofCalls progress.tracker.closing ++
        [.leaf (.remark ⟨none, label?, .calls arguments⟩), .line text] := by
  simp only [noteStatement, bind_ok, attempt_ok, append_ok, close_ok, remark_ok, emitLine,
    emit_ok] at h
  obtain ⟨texts, _, ⟨_, rfl⟩, _, _, _, ⟨rfl, rfl⟩, ⟨_, _, _, ⟨rfl, rfl⟩, ⟨rfl, rfl⟩, rfl⟩, rfl⟩ := h
  exact ⟨_, plainLine_of_mem '(' (by simp) (by decide), rfl, rfl⟩

theorem noteStatement_withDo_ok {bindings : List VariableDecl} {body : List Statement}
    (h : noteStatement definitions targets label? (.withDo mark bindings body) progress =
      .ok (code, after)) :
    ∃ front inner, noteBindings definitions label? bindings progress = .ok (front, progress) ∧
      Evaluates progress.tracker.openGroup label?
        (fun expression => ∃ decl ∈ bindings, decl.value = some expression) front ∧
      noteStatements definitions targets label? body progress = .ok (inner, after) ∧
      code = [.block (front ++ inner)] := by
  simp only [noteStatement, bind_ok, append_ok, pure_ok] at h
  obtain ⟨_, _, ⟨front, between, inner, hbindings, hinner, rfl⟩, rfl, rfl⟩ := h
  obtain ⟨rfl, hfront⟩ := noteBindings_ok hbindings
  exact ⟨front, inner, hbindings, hfront, hinner, rfl⟩

theorem noteStatement_print_ok {value : Expression}
    (h : noteStatement definitions targets label? (.print mark value) progress =
      .ok (code, after)) :
    (∃ imports, after = { progress with imports := imports }) ∧
      Evaluates progress.tracker.openGroup label? (· = value) code := by
  simp only [noteStatement, bind_ok, attempt_ok, setImports_ok, append_ok, remark_ok, emitLine,
    emit_ok] at h
  obtain ⟨text, _, ⟨_, rfl⟩, _, _, rfl, _, _, _, ⟨rfl, rfl⟩, ⟨rfl, rfl⟩, rfl⟩ := h
  refine ⟨⟨_, rfl⟩, Evaluates.one (plainLine_of_mem '(' (by simp) (by decide)) ?_⟩
  simp

theorem noteStatement_assert_ok {value : Expression}
    (h : noteStatement definitions targets label? (.assert mark value) progress =
      .ok (code, after)) :
    ∃ condition text, PlainLine text ∧ after = progress ∧
      code = [.leaf (.remark ⟨progress.tracker.openGroup, label?, .evaluates [value]⟩),
        .branch condition [.line text] []] := by
  simp only [noteStatement, bind_ok, attempt_ok, append_ok, remark_ok, emit_ok] at h
  obtain ⟨text, _, ⟨_, rfl⟩, _, _, _, ⟨rfl, rfl⟩, ⟨rfl, rfl⟩, rfl⟩ := h
  exact ⟨_, _, plainLine_of_mem '(' (by simp) (by decide), rfl, rfl⟩

theorem noteStatement_await_ok {value : Expression}
    (h : noteStatement definitions targets label? (.await mark value) progress =
      .ok (code, after)) :
    ∃ text label name, value.toGo definitions = .ok text ∧
      progress.tracker.label = some (label, name) ∧
      after = { progress with targets := name :: progress.targets } ∧
      code = [.leaf (.remark ⟨progress.tracker.openGroup, label?, .evaluates [value]⟩),
        .branch ("!" ++ text) (NotedCode.ofCalls progress.tracker.aborting ++
          [.leaf (.remark ⟨none, label?, .retries⟩), .goto name]) []] := by
  simp only [noteStatement, bind_ok, attempt_ok, remark_ok, pure_ok] at h
  obtain ⟨text, _, ⟨htext, rfl⟩, _, _, ⟨rfl, rfl⟩, ⟨retry, _⟩, _, hbranch, rfl, rfl⟩ := h
  obtain ⟨last, hretry, rfl, rfl⟩ := branch_ok.1 hbranch
  simp only [append_ok, Bool.false_eq_true, if_false, pure_ok] at hretry
  obtain ⟨_, _, _, habort, ⟨rfl, rfl⟩, rfl⟩ := hretry
  obtain ⟨label, name, hlabel, rfl, rfl⟩ := abort_ok habort
  rw [List.append_nil]
  exact ⟨text, label, name, htext, hlabel, rfl, rfl⟩

theorem noteStatement_leave_ok
    (h : noteStatement definitions targets label? (.leave mark) progress = .ok (code, after)) :
    after = { progress with tracker := progress.tracker.idle } ∧
      code = NotedCode.ofCalls progress.tracker.closing ++ [.line "return"] := by
  simp only [noteStatement, append_ok, close_ok, emitLine, emit_ok] at h
  obtain ⟨_, _, _, ⟨rfl, rfl⟩, ⟨rfl, rfl⟩, rfl⟩ := h
  exact ⟨rfl, rfl⟩

theorem noteStatement_skip_ok
    (h : noteStatement definitions targets label? (.skip mark) progress = .ok (code, after)) :
    after = progress ∧ code = [] := by
  obtain ⟨rfl, rfl⟩ := pure_ok.1 h
  exact ⟨rfl, rfl⟩

/-- A jump finishes the process or procedure, or goes to the label of its target. -/
theorem noteStatement_goto_ok {target : String}
    (h : noteStatement definitions targets label? (.goto mark target) progress =
      .ok (code, after)) :
    (after = { progress with tracker := progress.tracker.idle } ∧
        code = NotedCode.ofCalls progress.tracker.closing ++ [.line "return"]) ∨
      (after = { progress with
          tracker := progress.tracker.idle, targets := target :: progress.targets } ∧
        code = NotedCode.ofCalls progress.tracker.closing ++ [.goto target]) := by
  simp only [noteStatement, append_ok, close_ok] at h
  obtain ⟨_, _, _, ⟨rfl, rfl⟩, hjump, rfl⟩ := h
  split at hjump
  · obtain ⟨rfl, rfl⟩ := emit_ok.1 hjump
    exact .inl ⟨rfl, rfl⟩
  · obtain ⟨rfl, rfl⟩ := goTo_ok.1 hjump
    exact .inr ⟨rfl, rfl⟩

end Statements

/-! ## Functions -/

/-- Lines that are no jumps, and nothing else. -/
def PlainLines (code : NotedCode) : Prop :=
  ∃ texts : List String, code = texts.map .line ∧ ∀ text ∈ texts, PlainLine text

theorem PlainLines.append {first second : NotedCode} (hfirst : PlainLines first)
    (hsecond : PlainLines second) : PlainLines (first ++ second) := by
  obtain ⟨front, rfl, hfront⟩ := hfirst
  obtain ⟨back, rfl, hback⟩ := hsecond
  refine ⟨front ++ back, by simp, ?_⟩
  intro text htext
  rcases List.mem_append.1 htext with htext | htext
  · exact hfront text htext
  · exact hback text htext

private theorem plainLine_declaration (declaration : Declaration) :
    PlainLine declaration.render := by
  cases declaration <;> exact plainLine_of_mem ' ' (by simp [Declaration.render]) (by decide)

private theorem noteDeclare_ok {name : String} {declaration : Declaration}
    {progress after : Progress} {code : NotedCode}
    (h : noteDeclare name declaration progress = .ok (code, after)) :
    after = progress ∧ PlainLines code := by
  simp only [noteDeclare, append_ok, emitLine, emit_ok] at h
  obtain ⟨_, _, _, ⟨rfl, rfl⟩, ⟨rfl, rfl⟩, rfl⟩ := h
  refine ⟨rfl, [declaration.render, "_ = " ++ name], rfl, ?_⟩
  intro text htext
  rcases List.mem_cons.1 htext with rfl | htext
  · exact plainLine_declaration declaration
  · rw [List.mem_singleton.1 htext]
    exact plainLine_unused name

private theorem noteCopies_ok {copies : List VariableDecl} {progress after : Progress}
    {code : NotedCode} (h : noteCopies copies progress = .ok (code, after)) :
    after = progress ∧ PlainLines code := by
  induction copies generalizing code with
  | nil =>
    obtain ⟨rfl, rfl⟩ := pure_ok.1 h
    exact ⟨rfl, [], rfl, by simp⟩
  | cons decl rest ih =>
    obtain ⟨front, between, back, hfront, hback, rfl⟩ := append_ok.1 h
    obtain ⟨rfl, hlines⟩ := noteDeclare_ok hfront
    obtain ⟨rfl, hrest⟩ := ih hback
    exact ⟨rfl, hlines.append hrest⟩

private theorem noteLocals_ok {definitions : Definitions} {locals : List VariableDecl}
    {progress after : Progress} {code : NotedCode}
    (h : noteLocals definitions locals progress = .ok (code, after)) :
    after = progress ∧ PlainLines code := by
  induction locals generalizing code with
  | nil =>
    obtain ⟨rfl, rfl⟩ := pure_ok.1 h
    exact ⟨rfl, [], rfl, by simp⟩
  | cons decl rest ih =>
    simp only [noteLocals, bind_ok, attempt_ok] at h
    obtain ⟨declaration, _, ⟨_, rfl⟩, h⟩ := h
    obtain ⟨front, between, back, hfront, hback, rfl⟩ := append_ok.1 h
    obtain ⟨rfl, hlines⟩ := noteDeclare_ok hfront
    obtain ⟨rfl, hrest⟩ := ih hback
    exact ⟨rfl, hlines.append hrest⟩

/-- A function is made of its declarations, its body, and what closes the last step. -/
theorem FunctionContext.noted_ok {context : FunctionContext} {imports : Imports} {owner : Uid}
    {locals : List VariableDecl} {body : List Statement} {code : NotedCode} {after : Progress}
    (h : context.noted imports owner locals body = .ok (code, after)) :
    ∃ front inner last, PlainLines front ∧
      noteBody context.definitions body (context.start imports owner) = .ok (inner, last) ∧
      after = { last with tracker := last.tracker.idle } ∧
      code = front ++ (inner ++ NotedCode.ofCalls last.tracker.closing) := by
  obtain ⟨copies, _, _, hcopies, hothers, rfl⟩ := append_ok.1 h
  obtain ⟨rfl, hcopyLines⟩ := noteCopies_ok hcopies
  obtain ⟨locals, _, _, hlocals, hbody, rfl⟩ := append_ok.1 hothers
  obtain ⟨rfl, hlocalLines⟩ := noteLocals_ok hlocals
  obtain ⟨inner, last, _, hinner, hclose, rfl⟩ := append_ok.1 hbody
  obtain ⟨rfl, rfl⟩ := close_ok.1 hclose
  exact ⟨copies ++ locals, inner, last, hcopyLines.append hlocalLines, hinner, rfl, by simp⟩

end PlusCalGo.Go
