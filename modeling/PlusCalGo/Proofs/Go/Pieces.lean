import PlusCalGo.Proofs.Go.Visits

/-!
# Pieces of a body

Where lowering succeeds, it comes to every statement in a body, and the code of each statement
stands in the code of the body.
-/

namespace PlusCalGo

/-- The statement stands in statements under a label, and `found?` is the innermost label around
it. -/
inductive Statement.Stands (statement : Statement) (found? : Option Label) :
    Option Label → List Statement → Prop
  | here {rest : List Statement} : Stands statement found? found? (statement :: rest)
  | later {label? : Option Label} {first : Statement} {rest : List Statement} :
    Stands statement found? label? rest → Stands statement found? label? (first :: rest)
  | labeled {label? : Option Label} {mark : Mark} {label : Label} {body rest : List Statement} :
    Stands statement found? (some label) body →
      Stands statement found? label? (.labeled mark label body :: rest)
  | loop {label? : Option Label} {mark : Mark} {condition : Expression}
      {body rest : List Statement} :
    Stands statement found? label? body →
      Stands statement found? label? (.whileDo mark condition body :: rest)
  | yes {label? : Option Label} {mark : Mark} {condition : Expression}
      {yes no rest : List Statement} :
    Stands statement found? label? yes →
      Stands statement found? label? (.ifElse mark condition yes no :: rest)
  | no {label? : Option Label} {mark : Mark} {condition : Expression}
      {yes no rest : List Statement} :
    Stands statement found? label? no →
      Stands statement found? label? (.ifElse mark condition yes no :: rest)
  | case {label? : Option Label} {mark : Mark} {earlier cases : List (List Statement)}
      {body rest : List Statement} :
    Stands statement found? label? body →
      Stands statement found? label? (.either mark (earlier ++ body :: cases) :: rest)
  | inside {label? : Option Label} {mark : Mark} {bindings : List VariableDecl}
      {body rest : List Statement} :
    Stands statement found? label? body →
      Stands statement found? label? (.withDo mark bindings body :: rest)

namespace Go

variable {κ ι : Type}

/-- A piece of code stands in some code, at any depth. -/
inductive Code.In (piece : Code κ) : List (Code κ) → Prop
  | here {code : List (Code κ)} : piece ∈ code → In piece code
  | yes {code : List (Code κ)} {condition : String} {yes no : List (Code κ)} :
    .branch condition yes no ∈ code → In piece yes → In piece code
  | no {code : List (Code κ)} {condition : String} {yes no : List (Code κ)} :
    .branch condition yes no ∈ code → In piece no → In piece code
  | loop {code body : List (Code κ)} : .loop body ∈ code → In piece body → In piece code
  | case {code : List (Code κ)} {subject : String} {cases : List (List (Code κ))}
      {body : List (Code κ)} :
    .switch subject cases ∈ code → body ∈ cases → In piece body → In piece code
  | block {code body : List (Code κ)} : .block body ∈ code → In piece body → In piece code

namespace Code

theorem In.mono {piece : Code κ} {code more : List (Code κ)} (h : piece.In code)
    (hmore : ∀ part ∈ code, part ∈ more) : piece.In more := by
  cases h with
  | here hmem => exact .here (hmore _ hmem)
  | yes hmem h => exact .yes (hmore _ hmem) h
  | no hmem h => exact .no (hmore _ hmem) h
  | loop hmem h => exact .loop (hmore _ hmem) h
  | case hmem hbody h => exact .case (hmore _ hmem) hbody h
  | block hmem h => exact .block (hmore _ hmem) h

theorem mem_listExpand {write : κ → List (Code ι)} {part : Code κ} {code : List (Code κ)}
    {piece : Code ι} (hpart : part ∈ code) (hpiece : piece ∈ part.expand write) :
    piece ∈ listExpand write code := by
  induction code with
  | nil => cases hpart
  | cons first rest ih =>
    rw [listExpand, List.mem_append]
    rcases List.mem_cons.1 hpart with rfl | hpart
    · exact .inl hpiece
    · exact .inr (ih hpart)

/-- What a piece of code is written out as, stands in the code that is written out. -/
theorem In.expand {write : κ → List (Code ι)} {part : Code κ} {code : List (Code κ)}
    (h : part.In code) {piece : Code ι} (hpiece : piece ∈ part.expand write) :
    piece.In (listExpand write code) := by
  induction h with
  | here hmem => exact .here (mem_listExpand hmem hpiece)
  | yes hmem _ ih => exact .yes (mem_listExpand hmem (List.mem_singleton_self _)) ih
  | no hmem _ ih => exact .no (mem_listExpand hmem (List.mem_singleton_self _)) ih
  | loop hmem _ ih => exact .loop (mem_listExpand hmem (List.mem_singleton_self _)) ih
  | case hmem hbody _ ih =>
    refine .case (mem_listExpand hmem (List.mem_singleton_self _)) ?_ ih
    rw [casesExpand_eq_map]
    exact List.mem_map_of_mem hbody
  | block hmem _ ih => exact .block (mem_listExpand hmem (List.mem_singleton_self _)) ih

/-- Some code stands in other code as a whole, at any depth. -/
inductive Stretch (stretch : List (Code κ)) : List (Code κ) → Prop
  | here {front back : List (Code κ)} : Stretch stretch (front ++ (stretch ++ back))
  | yes {code : List (Code κ)} {condition : String} {yes no : List (Code κ)} :
    .branch condition yes no ∈ code → Stretch stretch yes → Stretch stretch code
  | no {code : List (Code κ)} {condition : String} {yes no : List (Code κ)} :
    .branch condition yes no ∈ code → Stretch stretch no → Stretch stretch code
  | loop {code body : List (Code κ)} :
    .loop body ∈ code → Stretch stretch body → Stretch stretch code
  | case {code : List (Code κ)} {subject : String} {cases : List (List (Code κ))}
      {body : List (Code κ)} :
    .switch subject cases ∈ code → body ∈ cases → Stretch stretch body → Stretch stretch code
  | block {code body : List (Code κ)} :
    .block body ∈ code → Stretch stretch body → Stretch stretch code

section Stretch

variable {stretch code : List (Code κ)}

theorem Stretch.mem_in (h : Stretch stretch code) {piece : Code κ} (hmem : piece ∈ stretch) :
    piece.In code := by
  induction h with
  | here => exact .here (List.mem_append_right _ (List.mem_append_left _ hmem))
  | yes hbranch _ ih => exact .yes hbranch ih
  | no hbranch _ ih => exact .no hbranch ih
  | loop hloop _ ih => exact .loop hloop ih
  | case hswitch hbody _ ih => exact .case hswitch hbody ih
  | block hblock _ ih => exact .block hblock ih

/-- There may be more code around. -/
theorem Stretch.between (h : Stretch stretch code) (front back : List (Code κ)) :
    Stretch stretch (front ++ (code ++ back)) := by
  have hmem : ∀ part ∈ code, part ∈ front ++ (code ++ back) := fun part hpart =>
    List.mem_append_right front (List.mem_append_left back hpart)
  cases h with
  | @here first last =>
    have hsplit : front ++ (first ++ (stretch ++ last) ++ back) =
        (front ++ first) ++ (stretch ++ (last ++ back)) := by
      simp only [List.append_assoc]
    rw [hsplit]
    exact .here
  | yes hbranch h => exact .yes (hmem _ hbranch) h
  | no hbranch h => exact .no (hmem _ hbranch) h
  | loop hloop h => exact .loop (hmem _ hloop) h
  | case hswitch hbody h => exact .case (hmem _ hswitch) hbody h
  | block hblock h => exact .block (hmem _ hblock) h

theorem Stretch.before (h : Stretch stretch code) (back : List (Code κ)) :
    Stretch stretch (code ++ back) :=
  h.between [] back

theorem Stretch.behind (h : Stretch stretch code) (front : List (Code κ)) :
    Stretch stretch (front ++ code) := by
  simpa using h.between front []

theorem Stretch.expand {write : κ → List (Code ι)} (h : Stretch stretch code) :
    Stretch (listExpand write stretch) (listExpand write code) := by
  induction h with
  | here =>
    rw [listExpand_append, listExpand_append]
    exact .here
  | yes hbranch _ ih => exact .yes (mem_listExpand hbranch (List.mem_singleton_self _)) ih
  | no hbranch _ ih => exact .no (mem_listExpand hbranch (List.mem_singleton_self _)) ih
  | loop hloop _ ih => exact .loop (mem_listExpand hloop (List.mem_singleton_self _)) ih
  | case hswitch hbody _ ih =>
    refine .case (mem_listExpand hswitch (List.mem_singleton_self _)) ?_ ih
    rw [casesExpand_eq_map]
    exact List.mem_map_of_mem hbody
  | block hblock _ ih => exact .block (mem_listExpand hblock (List.mem_singleton_self _)) ih

end Stretch

end Code

section Pieces

variable {definitions : Definitions} {targets : List String} {code : NotedCode}

/-- The statement is lowered where lowering comes to it, and each piece of its code stands in some
code. -/
def Visit.Lowers (definitions : Definitions) (targets : List String) (visit : Visit)
    (code : NotedCode) : Prop :=
  ∃ pieces after, noteStatement definitions targets visit.label? visit.statement visit.state =
    .ok (pieces, after) ∧ ∀ piece ∈ pieces, Code.In piece code

/-- The code of the statement even stands in some code as a whole. -/
def Visit.Writes (definitions : Definitions) (targets : List String) (visit : Visit)
    (code : NotedCode) : Prop :=
  ∃ stretch after, noteStatement definitions targets visit.label? visit.statement visit.state =
    .ok (stretch, after) ∧ Code.Stretch stretch code

theorem Visit.Writes.lowers {visit : Visit} (h : visit.Writes definitions targets code) :
    visit.Lowers definitions targets code := by
  obtain ⟨stretch, after, hlower, hstretch⟩ := h
  exact ⟨stretch, after, hlower, fun _ hmem => hstretch.mem_in hmem⟩

theorem Visit.Writes.mono {visit : Visit} {inner : NotedCode}
    (h : visit.Writes definitions targets inner)
    (hinner : ∀ stretch : NotedCode, Code.Stretch stretch inner → Code.Stretch stretch code) :
    visit.Writes definitions targets code := by
  obtain ⟨stretch, after, hlower, hstretch⟩ := h
  exact ⟨stretch, after, hlower, hinner stretch hstretch⟩

/-- A case is lowered after the cases before it. -/
theorem noteCases_split_ok {label? : Option Label} {closeSection : Bool}
    {first last : Option Tracker} {earlier cases : List (List Statement)} {body : List Statement}
    {state after : Progress} {codes : List NotedCode}
    (h : noteCases definitions targets label? closeSection first (earlier ++ body :: cases) state =
      .ok ((codes, last), after)) :
    ∃ before reached between code, noteCases definitions targets label? closeSection first earlier
        state = .ok ((before, reached), between) ∧
      ∃ after, noteBranch definitions targets label? closeSection body between =
        .ok (code, after) ∧ code ∈ codes := by
  induction earlier generalizing first state codes with
  | nil =>
    obtain ⟨code, after, others, hbody, _, _, rfl⟩ := noteCases_cons_ok h
    exact ⟨[], first, state, code, rfl, after, hbody, List.mem_cons_self⟩
  | cons case rest ih =>
    obtain ⟨caseCode, caseLast, others, hcase, hcheck, hrest, rfl⟩ := noteCases_cons_ok h
    obtain ⟨before, reached, between, code, hbefore, after, hbody, hmem⟩ := ih hrest
    have hbranch := Noting.branch_ok.2 ⟨caseLast, hcase, rfl, rfl⟩
    refine ⟨caseCode :: before, reached, between, code, Noting.bind_ok.2 ⟨_, _, hbranch, ?_⟩,
      after, hbody, List.mem_cons_of_mem _ hmem⟩
    cases first with
    | none => exact Noting.bind_ok.2 ⟨_, _, hbefore, rfl⟩
    | some tracker =>
      refine Noting.bind_ok.2 ⟨(), _, Noting.attempt_ok.2 ⟨hcheck tracker rfl, rfl⟩, ?_⟩
      exact Noting.bind_ok.2 ⟨_, _, hbefore, rfl⟩

/-- The code of the statements of a branch stands in the code of the branch. -/
theorem stretch_of_branch {label? : Option Label} {closeSection : Bool} {body : List Statement}
    {state after : Progress}
    (h : noteBranch definitions targets label? closeSection body state = .ok (code, after)) :
    ∃ front last, noteStatements definitions targets label? body state = .ok (front, last) ∧
      ∀ stretch : NotedCode, Code.Stretch stretch front → Code.Stretch stretch code := by
  obtain ⟨front, last, hfront, ⟨_, rfl, _⟩ | ⟨_, rfl, _⟩⟩ := Noting.closeIf_ok h
  · exact ⟨_, last, hfront, fun _ hstretch => hstretch⟩
  · exact ⟨front, last, hfront, fun _ hstretch => hstretch.before _⟩

/-- Lowering that succeeds comes to every statement, and writes its code. -/
theorem writes_of_stands {statement : Statement} {found? : Option Label}
    {arrival? : Option Arrival} {statements : List Statement} {state after : Progress}
    (hstands : statement.Stands found? (arrival?.map (·.label)) statements)
    (h : noteStatements definitions targets (arrival?.map (·.label)) statements state =
      .ok (code, after)) :
    ∃ visit, Visits definitions targets arrival? statements state visit ∧ visit.label? = found? ∧
      visit.statement = statement ∧ visit.Writes definitions targets code := by
  generalize hlabel : arrival?.map (·.label) = label? at hstands
  induction hstands generalizing arrival? state after code with
  | here =>
    obtain ⟨front, between, back, hstatement, _, rfl⟩ := Noting.append_ok.1 h
    exact ⟨⟨arrival?, statement, state⟩, .here, hlabel, rfl, front, between, hstatement,
      @Code.Stretch.here _ front [] back⟩
  | later _ ih =>
    obtain ⟨front, between, back, hstatement, hrest, rfl⟩ := Noting.append_ok.1 h
    obtain ⟨visit, hvisits, hfound, hsame, hwrites⟩ := ih hrest hlabel
    exact ⟨visit, .later hstatement hvisits, hfound, hsame,
      hwrites.mono fun _ hstretch => hstretch.behind front⟩
  | @labeled _ _ label _ _ _ ih =>
    obtain ⟨_, _, back, hstatement, _, rfl⟩ := Noting.append_ok.1 h
    obtain ⟨front, reached, opening, started, inner, hfront, hfresh, hstart, hinner, rfl⟩ :=
      noteStatement_labeled_ok hstatement
    let arrival : Arrival := ⟨label, reached.tracker⟩
    obtain ⟨visit, hvisits, hfound, hsame, hwrites⟩ := @ih _ (some arrival) _ _ hinner rfl
    refine ⟨visit, .labeled hfront hfresh hstart hvisits, hfound, hsame,
      hwrites.mono fun stretch hstretch => ?_⟩
    have hbody := hstretch.behind opening
    exact ((hbody.behind [_, _]).behind front).before back
  | loop _ ih =>
    obtain ⟨_, _, _, hstatement, _, rfl⟩ := Noting.append_ok.1 h
    obtain ⟨text, inner, between, back, htext, hinner, _, _, rfl⟩ :=
      noteStatement_whileDo_ok hstatement
    obtain ⟨visit, hvisits, hfound, hsame, hwrites⟩ := ih hinner hlabel
    refine ⟨visit, .loop htext hvisits, hfound, hsame, hwrites.mono fun stretch hstretch => ?_⟩
    exact .loop List.mem_cons_self (hstretch.between [_, _] back)
  | yes _ ih =>
    obtain ⟨_, _, _, hstatement, _, rfl⟩ := Noting.append_ok.1 h
    obtain ⟨text, yesCode, yesLast, noCode, noLast, htext, hyes, _, _, _, rfl⟩ :=
      noteStatement_ifElse_ok hstatement
    obtain ⟨front, last, hbody, hin⟩ := stretch_of_branch hyes
    obtain ⟨visit, hvisits, hfound, hsame, hwrites⟩ := ih hbody hlabel
    exact ⟨visit, .yes htext hvisits, hfound, hsame, hwrites.mono fun stretch hstretch =>
      .yes (List.mem_cons_of_mem _ List.mem_cons_self) (hin stretch hstretch)⟩
  | no _ ih =>
    obtain ⟨_, _, _, hstatement, _, rfl⟩ := Noting.append_ok.1 h
    obtain ⟨text, yesCode, yesLast, noCode, noLast, htext, hyes, hno, _, _, rfl⟩ :=
      noteStatement_ifElse_ok hstatement
    obtain ⟨front, last, hbody, hin⟩ := stretch_of_branch hno
    obtain ⟨visit, hvisits, hfound, hsame, hwrites⟩ := ih hbody hlabel
    exact ⟨visit, .no htext hyes hvisits, hfound, hsame, hwrites.mono fun stretch hstretch =>
      .no (List.mem_cons_of_mem _ List.mem_cons_self) (hin stretch hstretch)⟩
  | case _ ih =>
    obtain ⟨_, _, _, hstatement, _, rfl⟩ := Noting.append_ok.1 h
    obtain ⟨codes, first, last, hcases, _, rfl⟩ := noteStatement_either_ok hstatement
    obtain ⟨before, reached, between, caseCode, hearlier, _, hbranch, hmem⟩ :=
      noteCases_split_ok hcases
    obtain ⟨front, last, hbody, hin⟩ := stretch_of_branch hbranch
    obtain ⟨visit, hvisits, hfound, hsame, hwrites⟩ := ih hbody hlabel
    exact ⟨visit, .case hearlier hvisits, hfound, hsame, hwrites.mono fun stretch hstretch =>
      .case (List.mem_cons_of_mem _ List.mem_cons_self) hmem (hin stretch hstretch)⟩
  | inside _ ih =>
    obtain ⟨_, _, _, hstatement, _, rfl⟩ := Noting.append_ok.1 h
    obtain ⟨front, inner, hbindings, _, hinner, rfl⟩ := noteStatement_withDo_ok hstatement
    obtain ⟨visit, hvisits, hfound, hsame, hwrites⟩ := ih hinner hlabel
    exact ⟨visit, .inside hbindings hvisits, hfound, hsame, hwrites.mono fun stretch hstretch =>
      .block List.mem_cons_self (hstretch.behind front)⟩

theorem visits_of_stands {statement : Statement} {found? : Option Label}
    {arrival? : Option Arrival} {statements : List Statement} {state after : Progress}
    (hstands : statement.Stands found? (arrival?.map (·.label)) statements)
    (h : noteStatements definitions targets (arrival?.map (·.label)) statements state =
      .ok (code, after)) :
    ∃ visit, Visits definitions targets arrival? statements state visit ∧ visit.label? = found? ∧
      visit.statement = statement ∧ visit.Lowers definitions targets code := by
  obtain ⟨visit, hvisits, hfound, hsame, hwrites⟩ := writes_of_stands hstands h
  exact ⟨visit, hvisits, hfound, hsame, hwrites.lowers⟩

end Pieces

end Go

end PlusCalGo
