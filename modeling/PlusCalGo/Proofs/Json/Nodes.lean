import PlusCalGo.Proofs.Json.Brackets
import PlusCalGo.Algorithm.Reader
import PlusCalGo.Algorithm.Writer

/-!
# Reading expressions and declarations back

The readers of uids, places, operators, expressions and declarations take back what the writers of
these nodes made, if the reader may open as many brackets as the node has.
-/

namespace PlusCalGo

open Json Json.Reader

namespace Algorithm.Reader

variable {layout : Layout}

/-! ## Numbers and places -/

theorem reads_uid (uid : Uid) : Reads layout Reader.uid uid.toJson uid := by
  have hlt := uid.number.toNat_lt
  have hnumber : Reads layout (Reader.integer 0 4294967295 "u32") uid.toJson uid.number.toNat :=
    reads_integer "u32" (by omega) (by omega) (by omega) (by omega)
  have hread := hnumber.map fun n => (⟨UInt32.ofNat n.toNat⟩ : Uid)
  rwa [Int.toNat_natCast, UInt32.ofNat_toNat] at hread

theorem reads_int32 (n : Int32) : Reads layout int32 (.integer n.toInt) n := by
  have hmin := n.le_toInt
  have hmax := n.toInt_lt
  have hread : Reads layout int32 (.integer n.toInt) (Int32.ofInt n.toInt) :=
    (reads_integer "i32" n.minValue_le_toInt n.toInt_le (by omega) (by omega)).map Int32.ofInt
  rwa [Int32.ofInt_toInt] at hread

theorem reads_int64 (n : Int64) : Reads layout int64 (.integer n.toInt) n := by
  have hmin := n.le_toInt
  have hmax := n.toInt_lt
  have hread : Reads layout int64 (.integer n.toInt) (Int64.ofInt n.toInt) :=
    (reads_integer "i64" n.minValue_le_toInt n.toInt_le (by omega) (by omega)).map Int64.ofInt
  rwa [Int64.ofInt_toInt] at hread

theorem reads_position {depth : Nat} (hd : 0 < depth) (position : CharPosition) :
    Reads layout (Reader.position depth) position.toJson position :=
  -- Each member is found by its name, was not read before, and its value is read back.
  reads_record hd
    (.cons rfl rfl ((reads_int32 position.line).map _) <|
      .cons rfl rfl ((reads_int32 position.column).map _) <| .nil _)
    rfl

theorem reads_location {depth : Nat} (hd : 2 ≤ depth) (location : TextLocation) :
    Reads layout (Reader.location depth) location.toJson location :=
  reads_record (by omega)
    (.cons rfl rfl ((reads_position (by omega) location.start).map _) <|
      .cons rfl rfl ((reads_position (by omega) location.stop).map _) <| .nil _)
    rfl

/-! ## Names of a fixed set -/

theorem reads_binaryOperator (depth : Nat) (op : BinaryOperator) :
    Reads layout (binaryOperator depth) op.toJson op := by
  cases op <;> exact reads_unit rfl

theorem reads_unaryOperator (depth : Nat) (op : UnaryOperator) :
    Reads layout (unaryOperator depth) op.toJson op := by
  cases op <;> exact reads_unit rfl

theorem reads_resourceKind (depth : Nat) (kind : ResourceKind) :
    Reads layout (resourceKind depth) kind.toJson kind := by
  cases kind <;> exact reads_unit rfl

/-! ## Expressions -/

/-! The mutual readers of expressions where a bracket may still be opened. -/

theorem expression_succ (depth : Nat) :
    expression (depth + 1) = record (depth + 1) (expressionShape (expressionKind depth)) := rfl

theorem expressionKind_succ (depth : Nat) :
    expressionKind (depth + 1) = choice (depth + 1) (expressionKinds (indexFields depth)
      (binaryFields depth) (unaryFields depth) (ifElseFields depth) (applyFields depth)
      (expressions depth)) := rfl

theorem expressions_succ (depth : Nat) :
    expressions (depth + 1) = list (depth + 1) (expression depth) := rfl

theorem indexFields_succ (depth : Nat) : indexFields (depth + 1) =
    record (depth + 1) (indexShape (expression depth) (expressions depth)) := rfl

theorem binaryFields_succ (depth : Nat) : binaryFields (depth + 1) =
    record (depth + 1) (binaryShape (binaryOperator depth) (expression depth)) := rfl

theorem unaryFields_succ (depth : Nat) : unaryFields (depth + 1) =
    record (depth + 1) (unaryShape (unaryOperator depth) (expression depth)) := rfl

theorem ifElseFields_succ (depth : Nat) :
    ifElseFields (depth + 1) = record (depth + 1) (ifElseShape (expression depth)) := rfl

theorem applyFields_succ (depth : Nat) :
    applyFields (depth + 1) = record (depth + 1) (applyShape (expressions depth)) := rfl

theorem depth_node (uid : Uid) (kind : String) (content : Json) :
    (Expression.node uid kind content).depth = content.depth + 2 := by
  simp [Expression.node, Uid.toJson, Json.depth, membersDepth]

/-- An expression is read back if the content of its kind is. -/
theorem reads_node {depth : Nat} {kind : String} {content : Json}
    {reader : Reader ExpressionKind} {make : ExpressionKind} {uid : Uid} {result : Expression}
    (hkind : ((expressionKinds (indexFields depth) (binaryFields depth) (unaryFields depth)
      (ifElseFields depth) (applyFields depth) (expressions depth)).find? (·.1 = kind)).bind
        (·.2.reader?) = some reader)
    (hcontent : Reads layout reader content make) (hmake : make uid = result) :
    Reads layout (expression (depth + 2)) (Expression.node uid kind content) result := by
  subst hmake
  have hkind : Reads layout (expressionKind (depth + 1)) (.object [(kind, content)]) make := by
    rw [expressionKind_succ]
    exact reads_choice (Nat.succ_pos depth) hkind hcontent
  rw [expression_succ]
  exact reads_record (Nat.succ_pos _)
    (.cons rfl rfl ((reads_uid uid).map _) <| .cons rfl rfl (hkind.map _) <| .nil _) rfl

/-- A list of expressions is read back if each one is. -/
theorem reads_expressions {depth : Nat} {values : List Json} {results : List Expression}
    (hd : 0 < depth) (h : List.Forall₂ (Reads layout (expression (depth - 1))) values results) :
    Reads layout (expressions depth) (.array values) results := by
  obtain ⟨depth, rfl⟩ := Nat.exists_eq_succ_of_ne_zero (show depth ≠ 0 by omega)
  rw [expressions_succ]
  exact reads_list hd h

/-- The braces of an expression and of its kind. -/
theorem two_le_depth (expression : Expression) : 2 ≤ expression.toJson.depth := by
  cases expression <;> simp only [Expression.toJson, depth_node] <;> omega

open Expression (listToJson)

mutual

/-- Every bracket around a part of an expression takes one from the depth its reader has left, as
it takes one from the depth of the part. -/
theorem reads_expression (expression : Expression) {depth : Nat}
    (h : expression.toJson.depth ≤ depth) :
    Reads layout (Reader.expression depth) expression.toJson expression := by
  have hd := Nat.le_trans (two_le_depth expression) h
  obtain ⟨depth, rfl⟩ : ∃ d, depth = d + 2 := ⟨depth - 2, by omega⟩
  cases expression with
  | number uid value =>
    rw [Expression.toJson]
    exact reads_node rfl ((reads_int64 value).map _) rfl
  | bool uid value =>
    rw [Expression.toJson]
    exact reads_node rfl ((reads_bool value).map _) rfl
  | string uid value =>
    rw [Expression.toJson]
    exact reads_node rfl ((reads_string value).map _) rfl
  | identifier uid name =>
    rw [Expression.toJson]
    exact reads_node rfl ((reads_string name).map _) rfl
  | index uid function params =>
    rw [Expression.toJson] at h ⊢
    simp only [depth_node, Json.depth, membersDepth] at h
    obtain ⟨depth, rfl⟩ : ∃ d, depth = d + 1 := ⟨depth - 1, by omega⟩
    suffices hfields : Reads layout (indexFields (depth + 1)) _ fun uid =>
      .index uid function params from reads_node rfl hfields rfl
    rw [indexFields_succ]
    exact reads_record (Nat.succ_pos _)
      (.cons rfl rfl ((reads_expression function (by omega)).map _) <|
        .cons rfl rfl ((reads_expressions (by omega) (reads_items params (by omega))).map _) <|
        .nil _) rfl
  | binary uid op lhs rhs =>
    rw [Expression.toJson] at h ⊢
    simp only [depth_node, Json.depth, membersDepth] at h
    obtain ⟨depth, rfl⟩ : ∃ d, depth = d + 1 := ⟨depth - 1, by omega⟩
    suffices hfields : Reads layout (binaryFields (depth + 1)) _ fun uid =>
      .binary uid op lhs rhs from reads_node rfl hfields rfl
    rw [binaryFields_succ]
    exact reads_record (Nat.succ_pos _)
      (.cons rfl rfl ((reads_binaryOperator depth op).map _) <|
        .cons rfl rfl ((reads_expression lhs (by omega)).map _) <|
        .cons rfl rfl ((reads_expression rhs (by omega)).map _) <| .nil _) rfl
  | unary uid op operand =>
    rw [Expression.toJson] at h ⊢
    simp only [depth_node, Json.depth, membersDepth] at h
    obtain ⟨depth, rfl⟩ : ∃ d, depth = d + 1 := ⟨depth - 1, by omega⟩
    suffices hfields : Reads layout (unaryFields (depth + 1)) _ fun uid =>
      .unary uid op operand from reads_node rfl hfields rfl
    rw [unaryFields_succ]
    exact reads_record (Nat.succ_pos _)
      (.cons rfl rfl ((reads_unaryOperator depth op).map _) <|
        .cons rfl rfl ((reads_expression operand (by omega)).map _) <| .nil _) rfl
  | tuple uid elements =>
    rw [Expression.toJson] at h ⊢
    simp only [depth_node, Json.depth] at h
    obtain ⟨depth, rfl⟩ : ∃ d, depth = d + 1 := ⟨depth - 1, by omega⟩
    exact reads_node rfl
      ((reads_expressions (by omega) (reads_items elements (by omega))).map _) rfl
  | ifElse uid condition yes no =>
    rw [Expression.toJson] at h ⊢
    simp only [depth_node, Json.depth, membersDepth] at h
    obtain ⟨depth, rfl⟩ : ∃ d, depth = d + 1 := ⟨depth - 1, by omega⟩
    suffices hfields : Reads layout (ifElseFields (depth + 1)) _ fun uid =>
      .ifElse uid condition yes no from reads_node rfl hfields rfl
    rw [ifElseFields_succ]
    exact reads_record (Nat.succ_pos _)
      (.cons rfl rfl ((reads_expression condition (by omega)).map _) <|
        .cons rfl rfl ((reads_expression yes (by omega)).map _) <|
        .cons rfl rfl ((reads_expression no (by omega)).map _) <| .nil _) rfl
  | apply uid name args =>
    rw [Expression.toJson] at h ⊢
    simp only [depth_node, Json.depth, membersDepth] at h
    obtain ⟨depth, rfl⟩ : ∃ d, depth = d + 1 := ⟨depth - 1, by omega⟩
    suffices hfields : Reads layout (applyFields (depth + 1)) _ fun uid =>
      .apply uid name args from reads_node rfl hfields rfl
    rw [applyFields_succ]
    exact reads_record (Nat.succ_pos _)
      (.cons rfl rfl ((reads_string name).map _) <|
        .cons rfl rfl ((reads_expressions (by omega) (reads_items args (by omega))).map _) <|
        .nil _) rfl

theorem reads_items (expressions : List Expression) {depth : Nat}
    (h : elementsDepth (listToJson expressions) ≤ depth) :
    List.Forall₂ (Reads layout (Reader.expression depth)) (listToJson expressions)
      expressions := by
  cases expressions with
  | nil => exact .nil
  | cons expression rest =>
    rw [listToJson, elementsDepth] at h
    exact .cons (reads_expression expression (by omega)) (reads_items rest (by omega))

end

theorem toJson_ne_null (expression : Expression) : expression.toJson ≠ .null := by
  cases expression <;> simp [Expression.toJson, Expression.node]

theorem reads_initialValue (value : Option Expression) {depth : Nat}
    (h : (Expression.optionToJson value).depth ≤ depth) :
    Reads layout (Json.Reader.optional (expression depth)) (Expression.optionToJson value)
      value := by
  cases value with
  | none => exact reads_none _
  | some value => exact reads_some (toJson_ne_null value) (reads_expression value h)

/-! ## Lists of nodes -/

theorem depth_le_of_mem {value : Json} {values : List Json} (h : value ∈ values) :
    value.depth ≤ elementsDepth values := by
  induction values with
  | nil => simp at h
  | cons first rest ih =>
    rw [elementsDepth]
    rcases List.mem_cons.mp h with rfl | h
    · exact Nat.le_max_left ..
    · exact Nat.le_trans (ih h) (Nat.le_max_right ..)

/-- A list of nodes is read back if each node of its depth is. -/
theorem reads_nodes {α : Type} {depth : Nat} {item : Reader α} {toJson : α → Json} (nodes : List α)
    (hitem : ∀ node, (toJson node).depth ≤ depth - 1 → Reads layout item (toJson node) node)
    (h : elementsDepth (nodes.map toJson) < depth) :
    Reads layout (list depth item) (.array (nodes.map toJson)) nodes := by
  refine reads_list (by omega) ?_
  rw [List.forall₂_map_left_iff, List.forall₂_same]
  intro node hnode
  have hmem : toJson node ∈ nodes.map toJson := List.mem_map_of_mem hnode
  have hdepth := depth_le_of_mem hmem
  exact hitem node (by omega)

/-! ## Declarations -/

theorem reads_constantDecl (decl : ConstantDecl) {depth : Nat} (h : decl.toJson.depth ≤ depth) :
    Reads layout (constantDecl depth) decl.toJson decl := by
  simp only [ConstantDecl.toJson, Json.depth, membersDepth] at h
  exact reads_record (by omega)
    (.cons rfl rfl ((reads_uid decl.uid).map _) <|
      .cons rfl rfl ((reads_string decl.name).map _) <|
      .cons rfl rfl ((reads_initialValue decl.value (by omega)).map _) <| .nil _) rfl

theorem depth_location (location : TextLocation) : location.toJson.depth = 2 := by
  simp [TextLocation.toJson, CharPosition.toJson, Json.depth, membersDepth]

theorem reads_variableDecl (decl : VariableDecl) {depth : Nat} (h : decl.toJson.depth ≤ depth) :
    Reads layout (variableDecl depth) decl.toJson decl := by
  simp only [VariableDecl.toJson, Json.depth, membersDepth, depth_location] at h
  exact reads_record (by omega)
    (.cons rfl rfl ((reads_uid decl.uid).map _) <|
      .cons rfl rfl ((reads_string decl.name).map _) <|
      .cons rfl rfl ((reads_initialValue decl.value (by omega)).map _) <|
      .cons rfl rfl ((reads_resourceKind (depth - 1) decl.resource).map _) <|
      .cons rfl rfl ((reads_location (by omega) decl.location).map _) <| .nil _) rfl

theorem reads_variableDecls (decls : List VariableDecl) {depth : Nat}
    (h : elementsDepth (decls.map VariableDecl.toJson) < depth) :
    Reads layout (variableDecls depth) (.array (decls.map VariableDecl.toJson)) decls :=
  reads_nodes decls (fun decl => reads_variableDecl decl) h

theorem reads_label (label : Label) {depth : Nat} (hd : 0 < depth) :
    Reads layout (Reader.label depth) label.toJson label :=
  reads_record hd
    (.cons rfl rfl ((reads_uid label.uid).map _) <|
      .cons rfl rfl ((reads_string label.name).map _) <| .nil _) rfl

end Algorithm.Reader

end PlusCalGo
