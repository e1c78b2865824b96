import PlusCalGo.Proofs.Json.Nodes

/-!
# Loading saved algorithms

An algorithm that was written, on one line or indented, is loaded as itself, unless it is nested so
deeply that the reader refuses to open its brackets.
-/

namespace PlusCalGo

open Json Json.Reader

namespace Algorithm.Reader

variable {layout : Layout}

/-! ## Statements -/

theorem reads_assignmentPair (pair : AssignmentPair) {depth : Nat}
    (h : pair.toJson.depth ≤ depth) :
    Reads layout (assignmentPair depth) pair.toJson pair := by
  simp only [AssignmentPair.toJson, Json.depth, membersDepth] at h
  exact reads_record (by omega)
    (.cons rfl rfl ((reads_expression pair.lhs (by omega)).map _) <|
      .cons rfl rfl ((reads_expression pair.rhs (by omega)).map _) <| .nil _) rfl

/-! The mutual readers of statements where a bracket may still be opened. -/

theorem statement_succ (depth : Nat) : statement (depth + 1) =
    record (depth + 1) (statementShape (statementKind depth) (location depth)) := rfl

theorem statementKind_succ (depth : Nat) :
    statementKind (depth + 1) = choice (depth + 1) (statementKinds depth (labeledFields depth)
      (whileFields depth) (branchFields depth) (eitherFields depth) (withFields depth)) := rfl

theorem statements_succ (depth : Nat) :
    statements (depth + 1) = list (depth + 1) (statement depth) := rfl

theorem cases_succ (depth : Nat) : cases (depth + 1) = list (depth + 1) (statements depth) := rfl

theorem labeledFields_succ (depth : Nat) : labeledFields (depth + 1) =
    record (depth + 1) (labeledShape (label depth) (statements depth)) := rfl

theorem whileFields_succ (depth : Nat) : whileFields (depth + 1) =
    record (depth + 1) (whileShape (expression depth) (statements depth)) := rfl

theorem branchFields_succ (depth : Nat) : branchFields (depth + 1) =
    record (depth + 1) (branchShape (expression depth) (statements depth)) := rfl

theorem eitherFields_succ (depth : Nat) :
    eitherFields (depth + 1) = record (depth + 1) (eitherShape (cases depth)) := rfl

theorem withFields_succ (depth : Nat) : withFields (depth + 1) =
    record (depth + 1) (withShape (variableDecls depth) (statements depth)) := rfl

theorem depth_mark (mark : Mark) (kind : Json) : (mark.node kind).depth = max kind.depth 2 + 1 := by
  simp [Mark.node, Uid.toJson, Json.depth, membersDepth, depth_location]

theorem depth_fields (mark : Mark) (kind : String) (fields : List (String × Json)) :
    (mark.fields kind fields).depth = membersDepth fields + 3 := by
  simp [Mark.fields, depth_mark, Json.depth, membersDepth]

/-- A statement is read back if its kind is. -/
theorem reads_mark {depth : Nat} {mark : Mark} {kind : Json} {make : StatementKind}
    {result : Statement} (hkind : Reads layout (statementKind (depth + 2)) kind make)
    (hmake : make mark = result) :
    Reads layout (statement (depth + 3)) (mark.node kind) result := by
  subst hmake
  rw [statement_succ]
  exact reads_record (Nat.succ_pos _)
    (.cons rfl rfl ((reads_uid mark.uid).map _) <| .cons rfl rfl (hkind.map _) <|
      .cons rfl rfl ((reads_location (by omega) mark.location).map _) <| .nil _) rfl

/-- A statement is read back if the content of its kind is. -/
theorem reads_content {depth : Nat} {mark : Mark} {kind : String} {content : Json}
    {reader : Reader StatementKind} {make : StatementKind} {result : Statement}
    (hkind : ((statementKinds (depth + 1) (labeledFields (depth + 1)) (whileFields (depth + 1))
      (branchFields (depth + 1)) (eitherFields (depth + 1)) (withFields (depth + 1))).find?
        (·.1 = kind)).bind (·.2.reader?) = some reader)
    (hcontent : Reads layout reader content make) (hmake : make mark = result) :
    Reads layout (statement (depth + 3)) (mark.node (.object [(kind, content)])) result := by
  refine reads_mark ?_ hmake
  rw [statementKind_succ]
  exact reads_choice (Nat.succ_pos _) hkind hcontent

/-- A list of statements is read back if each one is. -/
theorem reads_statements {depth : Nat} {values : List Json} {results : List Statement}
    (hd : 0 < depth) (h : List.Forall₂ (Reads layout (statement (depth - 1))) values results) :
    Reads layout (statements depth) (.array values) results := by
  obtain ⟨depth, rfl⟩ := Nat.exists_eq_succ_of_ne_zero (show depth ≠ 0 by omega)
  rw [statements_succ]
  exact reads_list hd h

theorem reads_callFields {depth : Nat} (wanted : String)
    (make : Mark → String → List Expression → Statement) (target : String)
    (arguments : List Expression) (h : elementsDepth (Expression.listToJson arguments) < depth) :
    Reads layout (callFields (depth + 1) wanted make)
      (.object [("target", .string target),
        ("arguments", .array (Expression.listToJson arguments))])
      fun mark => make mark target arguments :=
  reads_record (Nat.succ_pos _)
    (.cons rfl rfl ((reads_string target).map _) <|
      .cons rfl rfl ((reads_expressions (by omega) (reads_items arguments (by omega))).map _) <|
      .nil _) rfl

open Statement (listToJson casesToJson)

/-- The braces of a statement and the location in it. -/
theorem three_le_depth (statement : Statement) : 3 ≤ statement.toJson.depth := by
  cases statement <;> simp only [Statement.toJson, depth_fields, depth_mark] <;> omega

mutual

theorem reads_statement (statement : Statement) {depth : Nat}
    (h : statement.toJson.depth ≤ depth) :
    Reads layout (Reader.statement depth) statement.toJson statement := by
  have hd := Nat.le_trans (three_le_depth statement) h
  obtain ⟨depth, rfl⟩ : ∃ d, depth = d + 3 := ⟨depth - 3, by omega⟩
  cases statement with
  | labeled mark label body =>
    rw [Statement.toJson] at h ⊢
    simp only [depth_fields, Json.depth, membersDepth] at h
    suffices hfields : Reads layout (labeledFields (depth + 1)) _ fun mark =>
      .labeled mark label body from reads_content rfl hfields rfl
    rw [labeledFields_succ]
    exact reads_record (Nat.succ_pos _)
      (.cons rfl rfl ((reads_label label (by omega)).map _) <|
        .cons rfl rfl ((reads_statements (by omega) (reads_body body (by omega))).map _) <|
        .nil _) rfl
  | whileDo mark condition body =>
    rw [Statement.toJson] at h ⊢
    simp only [depth_fields, Json.depth, membersDepth] at h
    suffices hfields : Reads layout (whileFields (depth + 1)) _ fun mark =>
      .whileDo mark condition body from reads_content rfl hfields rfl
    rw [whileFields_succ]
    exact reads_record (Nat.succ_pos _)
      (.cons rfl rfl ((reads_expression condition (by omega)).map _) <|
        .cons rfl rfl ((reads_statements (by omega) (reads_body body (by omega))).map _) <|
        .nil _) rfl
  | ifElse mark condition yes no =>
    rw [Statement.toJson] at h ⊢
    simp only [depth_fields, Json.depth, membersDepth] at h
    suffices hfields : Reads layout (branchFields (depth + 1)) _ fun mark =>
      .ifElse mark condition yes no from reads_content rfl hfields rfl
    rw [branchFields_succ]
    exact reads_record (Nat.succ_pos _)
      (.cons rfl rfl ((reads_expression condition (by omega)).map _) <|
        .cons rfl rfl ((reads_statements (by omega) (reads_body yes (by omega))).map _) <|
        .cons rfl rfl ((reads_statements (by omega) (reads_body no (by omega))).map _) <|
        .nil _) rfl
  | either mark cases =>
    rw [Statement.toJson] at h ⊢
    simp only [depth_fields, Json.depth, membersDepth] at h
    obtain ⟨depth, rfl⟩ : ∃ d, depth = d + 1 := ⟨depth - 1, by omega⟩
    suffices hfields : Reads layout (eitherFields (depth + 2)) _ fun mark =>
      .either mark cases from reads_content rfl hfields rfl
    rw [eitherFields_succ, cases_succ]
    exact reads_record (Nat.succ_pos _)
      (.cons rfl rfl ((reads_list (Nat.succ_pos _) (reads_cases cases (by omega))).map _) <|
        .nil _) rfl
  | assign mark pairs =>
    rw [Statement.toJson] at h ⊢
    simp only [depth_fields, Json.depth, membersDepth] at h
    suffices hfields : Reads layout (assignFields (depth + 1)) _ fun mark =>
      .assign mark pairs from reads_content rfl hfields rfl
    have hpairs : Reads layout (list depth (assignmentPair (depth - 1)))
        (.array (pairs.map AssignmentPair.toJson)) pairs :=
      reads_nodes pairs (fun pair => reads_assignmentPair pair) (by omega)
    exact reads_record (Nat.succ_pos _) (.cons rfl rfl (hpairs.map _) <| .nil _) rfl
  | leave mark =>
    rw [Statement.toJson]
    suffices hkind : Reads layout (statementKind (depth + 2)) _ Statement.leave from
      reads_mark hkind rfl
    rw [statementKind_succ]
    exact reads_unit rfl
  | skip mark =>
    rw [Statement.toJson]
    suffices hkind : Reads layout (statementKind (depth + 2)) _ Statement.skip from
      reads_mark hkind rfl
    rw [statementKind_succ]
    exact reads_unit rfl
  | call mark target arguments =>
    rw [Statement.toJson] at h ⊢
    simp only [depth_fields, Json.depth, membersDepth] at h
    exact reads_content rfl (reads_callFields _ .call target arguments (by omega)) rfl
  | macroCall mark target arguments =>
    rw [Statement.toJson] at h ⊢
    simp only [depth_fields, Json.depth, membersDepth] at h
    exact reads_content rfl (reads_callFields _ .macroCall target arguments (by omega)) rfl
  | withDo mark bindings body =>
    rw [Statement.toJson] at h ⊢
    simp only [depth_fields, Json.depth, membersDepth] at h
    suffices hfields : Reads layout (withFields (depth + 1)) _ fun mark =>
      .withDo mark bindings body from reads_content rfl hfields rfl
    rw [withFields_succ]
    exact reads_record (Nat.succ_pos _)
      (.cons rfl rfl ((reads_variableDecls bindings (by omega)).map _) <|
        .cons rfl rfl ((reads_statements (by omega) (reads_body body (by omega))).map _) <|
        .nil _) rfl
  | print mark value =>
    rw [Statement.toJson] at h ⊢
    simp only [depth_mark, Json.depth, membersDepth] at h
    exact reads_content rfl ((reads_expression value (by omega)).map _) rfl
  | assert mark value =>
    rw [Statement.toJson] at h ⊢
    simp only [depth_mark, Json.depth, membersDepth] at h
    exact reads_content rfl ((reads_expression value (by omega)).map _) rfl
  | await mark value =>
    rw [Statement.toJson] at h ⊢
    simp only [depth_mark, Json.depth, membersDepth] at h
    exact reads_content rfl ((reads_expression value (by omega)).map _) rfl
  | goto mark target =>
    rw [Statement.toJson]
    exact reads_content rfl ((reads_string target).map _) rfl

theorem reads_body (statements : List Statement) {depth : Nat}
    (h : elementsDepth (listToJson statements) ≤ depth) :
    List.Forall₂ (Reads layout (Reader.statement depth)) (listToJson statements) statements := by
  cases statements with
  | nil => exact .nil
  | cons statement rest =>
    rw [listToJson, elementsDepth] at h
    exact .cons (reads_statement statement (by omega)) (reads_body rest (by omega))

theorem reads_cases (cases : List (List Statement)) {depth : Nat}
    (h : elementsDepth (casesToJson cases) ≤ depth) :
    List.Forall₂ (Reads layout (Reader.statements depth)) (casesToJson cases) cases := by
  cases cases with
  | nil => exact .nil
  | cons statements rest =>
    rw [casesToJson, elementsDepth, Json.depth] at h
    exact .cons (reads_statements (by omega) (reads_body statements (by omega)))
      (reads_cases rest (by omega))

end

/-- The statements of a process or procedure. -/
theorem reads_wholeBody (body : List Statement) {depth : Nat}
    (h : elementsDepth (listToJson body) < depth) :
    Reads layout (statements depth) (.array (listToJson body)) body :=
  reads_statements (by omega) (reads_body body (by omega))

/-! ## Processes, procedures and the algorithm -/

theorem reads_processSelf (value : ProcessSelf) {depth : Nat} (h : value.toJson.depth ≤ depth) :
    Reads layout (processSelf depth) value.toJson value := by
  cases value with
  | single value =>
    simp only [ProcessSelf.toJson, Json.depth, membersDepth] at h
    have hvalue : Reads layout (do pure (ProcessSelf.single (← expression (depth - 1))))
        value.toJson (.single value) :=
      (reads_expression value (by omega)).map ProcessSelf.single
    rw [bind_pure_comp] at hvalue
    exact reads_choice (by omega) rfl hvalue
  | range low high =>
    simp only [ProcessSelf.toJson, Json.depth, membersDepth] at h
    have hrange : Reads layout (selfRange (depth - 1))
        (.object [("low", low.toJson), ("high", high.toJson)]) (.range low high) :=
      reads_record (by omega)
        (.cons rfl rfl ((reads_expression low (by omega)).map _) <|
          .cons rfl rfl ((reads_expression high (by omega)).map _) <| .nil _) rfl
    exact reads_choice (by omega) rfl hrange

theorem reads_process (process : Process) {depth : Nat} (h : process.toJson.depth ≤ depth) :
    Reads layout (Reader.process depth) process.toJson process := by
  simp only [Process.toJson, Json.depth, membersDepth] at h
  exact reads_record (by omega)
    (.cons rfl rfl ((reads_uid process.uid).map _) <|
      .cons rfl rfl ((reads_string process.name).map _) <|
      .cons rfl rfl ((reads_uid process.selfDecl).map _) <|
      .cons rfl rfl ((reads_processSelf process.selfValue (by omega)).map _) <|
      .cons rfl rfl ((reads_variableDecls process.locals (by omega)).map _) <|
      .cons rfl rfl ((reads_wholeBody process.body (by omega)).map _) <| .nil _) rfl

theorem reads_procedure (procedure : Procedure) {depth : Nat}
    (h : procedure.toJson.depth ≤ depth) :
    Reads layout (Reader.procedure depth) procedure.toJson procedure := by
  simp only [Procedure.toJson, Json.depth, membersDepth] at h
  exact reads_record (by omega)
    (.cons rfl rfl ((reads_uid procedure.uid).map _) <|
      .cons rfl rfl ((reads_string procedure.name).map _) <|
      .cons rfl rfl ((reads_variableDecls procedure.params (by omega)).map _) <|
      .cons rfl rfl ((reads_variableDecls procedure.locals (by omega)).map _) <|
      .cons rfl rfl ((reads_wholeBody procedure.body (by omega)).map _) <| .nil _) rfl

theorem reads_algorithm (algorithm : Algorithm) {depth : Nat}
    (h : algorithm.toJson.depth ≤ depth) :
    Reads layout (Reader.algorithm depth) algorithm.toJson algorithm := by
  simp only [Algorithm.toJson, Json.depth, membersDepth] at h
  exact reads_record (by omega)
    (.cons rfl rfl ((reads_string algorithm.name).map _) <|
      .cons rfl rfl ((reads_nodes algorithm.constants
        (fun decl hdecl => reads_constantDecl decl (by omega)) (by omega)).map _) <|
      .cons rfl rfl ((reads_variableDecls algorithm.globals (by omega)).map _) <|
      .cons rfl rfl ((reads_nodes algorithm.procedures
        (fun procedure hprocedure => reads_procedure procedure (by omega)) (by omega)).map _) <|
      .cons rfl rfl ((reads_nodes algorithm.processes
        (fun process hprocess => reads_process process (by omega)) (by omega)).map _) <|
      .nil _) rfl

end Algorithm.Reader

namespace Algorithm

/-- A text in some layout is loaded if its algorithm is nested no deeper than the reader allows. -/
theorem parse_write (layout : Layout) {algorithm : Algorithm}
    (h : algorithm.toJson.depth ≤ depthLimit) :
    Algorithm.parse (String.ofList (layout.write 0 algorithm.toJson)) = .ok algorithm := by
  have hreads : Reads layout (Reader.algorithm depthLimit) algorithm.toJson algorithm :=
    Reader.reads_algorithm algorithm h
  have hread := hreads [] 0 [] blank_nil ends_nil
  rw [List.nil_append, List.append_nil] at hread
  simp only [Algorithm.parse, Json.parse, String.toList_ofList, hread]
  rfl

/-- Loading undoes saving, on one line or indented. -/
theorem parse_saved {algorithm : Algorithm} (h : algorithm.toJson.depth ≤ depthLimit) :
    Algorithm.parse algorithm.toJson.compact = .ok algorithm ∧
      Algorithm.parse algorithm.toJson.indented = .ok algorithm := by
  constructor
  · rw [Json.compact, ← Layout.write_oneLine 0]
    exact parse_write .oneLine h
  · rw [Json.indented, ← Layout.write_indented 0]
    exact parse_write .indented h

/-- Smallest and largest numbers, a name with escapes and letters beyond ASCII, an absent and a
present initial value, and a statement inside of a statement. -/
private def corners : Algorithm where
  name := "a\t\"b\\\x01\u2200"
  constants := [⟨⟨0⟩, "N", none⟩]
  globals := [⟨⟨4294967295⟩, "x", some (.number ⟨1⟩ (-9223372036854775808)), .slice,
    ⟨⟨-2147483648, 0⟩, ⟨2147483647, 7⟩⟩⟩]
  procedures := []
  processes := [⟨⟨2⟩, "P", ⟨3⟩, .range (.number ⟨4⟩ 1) (.identifier ⟨5⟩ "N"), [],
    [.labeled ⟨⟨6⟩, .unknown⟩ ⟨⟨7⟩, "l"⟩
      [.either ⟨⟨8⟩, .unknown⟩ [[.skip ⟨⟨9⟩, .unknown⟩], [.await ⟨⟨10⟩, .unknown⟩
        (.binary ⟨11⟩ .lessThan (.identifier ⟨12⟩ "x")
          (.unary ⟨13⟩ .negate (.bool ⟨14⟩ true)))]]]]⟩]

theorem parse_saved_corners : corners.toJson.depth ≤ depthLimit ∧
    Algorithm.parse corners.toJson.compact = .ok corners ∧
      Algorithm.parse corners.toJson.indented = .ok corners :=
  ⟨by cbv, parse_saved (by cbv)⟩

end Algorithm

end PlusCalGo
