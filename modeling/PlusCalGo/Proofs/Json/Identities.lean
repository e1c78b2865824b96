import Mathlib.Data.List.Nodup
import PlusCalGo.Algorithm.Writer
import PlusCalGo.Proofs.Resolution.Registrations

/-!
# Identities in written algorithms

The walk over the uids of an algorithm comes to all numbers that its JSON holds for identities, to
each as often as it is written, and to nothing else. So no two nodes share a uid where the check of
the uids is passed.
-/

namespace PlusCalGo

/-! ## Values under a key -/

namespace Json

mutual

/-- The values under some keys at any depth, in the order in which they are written. -/
def valuesUnder (keys : List String) : Json → List Json
  | array elements => elementsUnder keys elements
  | object members => membersUnder keys members
  | null | bool _ | integer _ | string _ => []

def elementsUnder (keys : List String) : List Json → List Json
  | [] => []
  | element :: rest => element.valuesUnder keys ++ elementsUnder keys rest

def membersUnder (keys : List String) : List (String × Json) → List Json
  | [] => []
  | (name, value) :: rest =>
    (if name ∈ keys then [value] else []) ++ (value.valuesUnder keys ++ membersUnder keys rest)

end

/-- Elements one after the other. -/
theorem elementsUnder_map {α : Type} (keys : List String) (toJson : α → Json) (entries : List α) :
    elementsUnder keys (entries.map toJson) =
      entries.flatMap fun entry => (toJson entry).valuesUnder keys := by
  induction entries with
  | nil => rfl
  | cons entry rest ih => rw [List.map_cons, elementsUnder, ih, List.flatMap_cons]

end Json

open Json

/-- The keys under which a node has its own uid, or that of the `self` it declares. -/
def identityKeys : List String := ["uid", "self_decl"]

@[simp] theorem mem_identityKeys {name : String} :
    name ∈ identityKeys ↔ name = "uid" ∨ name = "self_decl" := by
  simp [identityKeys]

/-! ## The walk over the uids -/

section Walk

@[simp] theorem Uid.valuesUnder_toJson (keys : List String) (uid : Uid) :
    uid.toJson.valuesUnder keys = [] := rfl

@[simp] theorem TextLocation.valuesUnder_toJson (location : TextLocation) :
    location.toJson.valuesUnder identityKeys = [] := by
  simp [toJson, CharPosition.toJson, valuesUnder, membersUnder]

@[simp] theorem ResourceKind.valuesUnder_toJson (keys : List String) (resource : ResourceKind) :
    resource.toJson.valuesUnder keys = [] := by
  cases resource <;> rfl

@[simp] theorem BinaryOperator.valuesUnder_toJson (keys : List String) (op : BinaryOperator) :
    op.toJson.valuesUnder keys = [] := by
  cases op <;> rfl

@[simp] theorem UnaryOperator.valuesUnder_toJson (keys : List String) (op : UnaryOperator) :
    op.toJson.valuesUnder keys = [] := by
  cases op <;> rfl

/-- A node of an expression has its uid before what is in it. -/
theorem Expression.valuesUnder_node (uid : Uid) {kind : String} (hkind : kind ∉ identityKeys)
    (content : Json) :
    (node uid kind content).valuesUnder identityKeys =
      uid.toJson :: content.valuesUnder identityKeys := by
  simp only [mem_identityKeys, not_or] at hkind
  simp [node, valuesUnder, membersUnder, hkind]

mutual

theorem Expression.valuesUnder_toJson (expression : Expression) :
    expression.toJson.valuesUnder identityKeys = expression.uids.map Uid.toJson := by
  cases expression with
  | number uid value => rw [toJson, valuesUnder_node uid (by decide)]; rfl
  | bool uid value => rw [toJson, valuesUnder_node uid (by decide)]; rfl
  | string uid value => rw [toJson, valuesUnder_node uid (by decide)]; rfl
  | identifier uid name => rw [toJson, valuesUnder_node uid (by decide)]; rfl
  | index uid function params =>
    have hfunction := function.valuesUnder_toJson
    have hparams := Expression.elementsUnder_toJson params
    rw [toJson, valuesUnder_node uid (by decide)]
    simp [valuesUnder, membersUnder, uids, ← hfunction, ← hparams]
  | binary uid op lhs rhs =>
    have hlhs := lhs.valuesUnder_toJson
    have hrhs := rhs.valuesUnder_toJson
    rw [toJson, valuesUnder_node uid (by decide)]
    simp [valuesUnder, membersUnder, uids, ← hlhs, ← hrhs]
  | unary uid op operand =>
    have hoperand := operand.valuesUnder_toJson
    rw [toJson, valuesUnder_node uid (by decide)]
    simp [valuesUnder, membersUnder, uids, ← hoperand]
  | tuple uid elements =>
    have helements := Expression.elementsUnder_toJson elements
    rw [toJson, valuesUnder_node uid (by decide), valuesUnder, helements]
    rfl
  | ifElse uid condition yes no =>
    have hcondition := condition.valuesUnder_toJson
    have hyes := yes.valuesUnder_toJson
    have hno := no.valuesUnder_toJson
    rw [toJson, valuesUnder_node uid (by decide)]
    simp [valuesUnder, membersUnder, uids, ← hcondition, ← hyes, ← hno]
  | apply uid name args =>
    have hargs := Expression.elementsUnder_toJson args
    rw [toJson, valuesUnder_node uid (by decide)]
    simp [valuesUnder, membersUnder, uids, ← hargs]

theorem Expression.elementsUnder_toJson (expressions : List Expression) :
    elementsUnder identityKeys (Expression.listToJson expressions) =
      (Expression.listUids expressions).map Uid.toJson := by
  cases expressions with
  | nil => rfl
  | cons expression rest =>
    rw [Expression.listToJson, elementsUnder, expression.valuesUnder_toJson,
      Expression.elementsUnder_toJson rest, Expression.listUids, List.map_append]

end

theorem Expression.valuesUnder_optionToJson (value : Option Expression) :
    (Expression.optionToJson value).valuesUnder identityKeys =
      ((value.map Expression.uids).getD []).map Uid.toJson := by
  cases value with
  | none => rfl
  | some value => exact value.valuesUnder_toJson

theorem ConstantDecl.valuesUnder_toJson (decl : ConstantDecl) :
    decl.toJson.valuesUnder identityKeys = decl.uids.map Uid.toJson := by
  simp [toJson, valuesUnder, membersUnder, uids,
    ← Expression.valuesUnder_optionToJson]

theorem VariableDecl.valuesUnder_toJson (decl : VariableDecl) :
    decl.toJson.valuesUnder identityKeys = decl.uids.map Uid.toJson := by
  simp [toJson, valuesUnder, membersUnder, uids,
    ← Expression.valuesUnder_optionToJson]

theorem AssignmentPair.valuesUnder_toJson (pair : AssignmentPair) :
    pair.toJson.valuesUnder identityKeys = pair.uids.map Uid.toJson := by
  simp [toJson, valuesUnder, membersUnder, uids, ← Expression.valuesUnder_toJson]

/-- Entries that are walked one by one are written one by one. -/
theorem elementsUnder_flatMap {α : Type} {toJson : α → Json} {uids : α → List Uid}
    (h : ∀ entry, (toJson entry).valuesUnder identityKeys = (uids entry).map Uid.toJson)
    (entries : List α) :
    elementsUnder identityKeys (entries.map toJson) = (entries.flatMap uids).map Uid.toJson := by
  rw [elementsUnder_map, List.map_flatMap]
  simp only [h]

theorem Expression.elementsUnder_arguments (arguments : List Expression) :
    elementsUnder identityKeys (Expression.listToJson arguments) =
      (arguments.flatMap Expression.uids).map Uid.toJson := by
  rw [Expression.elementsUnder_toJson]
  congr 1
  induction arguments with
  | nil => rfl
  | cons argument rest ih => rw [Expression.listUids, ih, List.flatMap_cons]

theorem Mark.valuesUnder_node (mark : Mark) (kind : Json) :
    (mark.node kind).valuesUnder identityKeys =
      mark.uid.toJson :: kind.valuesUnder identityKeys := by
  simp [node, valuesUnder, membersUnder]

theorem Mark.valuesUnder_fields (mark : Mark) {kind : String} (hkind : kind ∉ identityKeys)
    (members : List (String × Json)) :
    (mark.fields kind members).valuesUnder identityKeys =
      mark.uid.toJson :: membersUnder identityKeys members := by
  simp only [mem_identityKeys, not_or] at hkind
  simp [fields, mark.valuesUnder_node, valuesUnder, membersUnder, hkind]

mutual

theorem Statement.valuesUnder_toJson (statement : Statement) :
    statement.toJson.valuesUnder identityKeys = statement.uids.map Uid.toJson := by
  cases statement with
  | labeled mark label body =>
    have hbody := Statement.elementsUnder_toJson body
    rw [toJson, mark.valuesUnder_fields (by decide)]
    simp [valuesUnder, membersUnder, uids, Label.toJson, ← hbody]
  | whileDo mark condition body =>
    have hbody := Statement.elementsUnder_toJson body
    rw [toJson, mark.valuesUnder_fields (by decide)]
    simp [valuesUnder, membersUnder, uids, ← hbody, ← condition.valuesUnder_toJson]
  | ifElse mark condition yes no =>
    have hyes := Statement.elementsUnder_toJson yes
    have hno := Statement.elementsUnder_toJson no
    rw [toJson, mark.valuesUnder_fields (by decide)]
    simp [valuesUnder, membersUnder, uids, ← hyes, ← hno, ← condition.valuesUnder_toJson]
  | either mark cases =>
    have hcases := Statement.casesUnder_toJson cases
    rw [toJson, mark.valuesUnder_fields (by decide)]
    simp [valuesUnder, membersUnder, uids, ← hcases]
  | assign mark pairs =>
    have hpairs := elementsUnder_flatMap AssignmentPair.valuesUnder_toJson pairs
    rw [toJson, mark.valuesUnder_fields (by decide), uids, List.map_cons, ← hpairs]
    simp [valuesUnder, membersUnder]
  | leave mark => rw [toJson, mark.valuesUnder_node]; rfl
  | skip mark => rw [toJson, mark.valuesUnder_node]; rfl
  | call mark target arguments =>
    rw [toJson, mark.valuesUnder_fields (by decide), uids, List.map_cons,
      ← Expression.elementsUnder_arguments]
    simp [valuesUnder, membersUnder]
  | macroCall mark target arguments =>
    rw [toJson, mark.valuesUnder_fields (by decide), uids, List.map_cons,
      ← Expression.elementsUnder_arguments]
    simp [valuesUnder, membersUnder]
  | withDo mark bindings body =>
    have hbindings := elementsUnder_flatMap VariableDecl.valuesUnder_toJson bindings
    have hbody := Statement.elementsUnder_toJson body
    rw [toJson, mark.valuesUnder_fields (by decide), uids, List.map_cons, List.map_append,
      ← hbindings, ← hbody]
    simp [valuesUnder, membersUnder]
  | print mark value =>
    rw [toJson, mark.valuesUnder_node]
    simp [valuesUnder, membersUnder, uids, ← value.valuesUnder_toJson]
  | assert mark value =>
    rw [toJson, mark.valuesUnder_node]
    simp [valuesUnder, membersUnder, uids, ← value.valuesUnder_toJson]
  | await mark value =>
    rw [toJson, mark.valuesUnder_node]
    simp [valuesUnder, membersUnder, uids, ← value.valuesUnder_toJson]
  | goto mark target =>
    rw [toJson, mark.valuesUnder_node]
    simp [valuesUnder, membersUnder, uids]

theorem Statement.elementsUnder_toJson (statements : List Statement) :
    elementsUnder identityKeys (Statement.listToJson statements) =
      (Statement.listUids statements).map Uid.toJson := by
  cases statements with
  | nil => rfl
  | cons statement rest =>
    rw [Statement.listToJson, elementsUnder, statement.valuesUnder_toJson,
      Statement.elementsUnder_toJson rest, Statement.listUids, List.map_append]

theorem Statement.casesUnder_toJson (cases : List (List Statement)) :
    elementsUnder identityKeys (Statement.casesToJson cases) =
      (Statement.casesUids cases).map Uid.toJson := by
  cases cases with
  | nil => rfl
  | cons statements rest =>
    rw [Statement.casesToJson, elementsUnder, valuesUnder,
      Statement.elementsUnder_toJson statements, Statement.casesUnder_toJson rest,
      Statement.casesUids, List.map_append]

end

theorem ProcessSelf.valuesUnder_toJson (value : ProcessSelf) :
    value.toJson.valuesUnder identityKeys = value.uids.map Uid.toJson := by
  cases value with
  | single value => simp [toJson, valuesUnder, membersUnder, uids, ← value.valuesUnder_toJson]
  | range low high =>
    simp [toJson, valuesUnder, membersUnder, uids, ← low.valuesUnder_toJson,
      ← high.valuesUnder_toJson]

theorem Process.valuesUnder_toJson (process : Process) :
    process.toJson.valuesUnder identityKeys = process.uids.map Uid.toJson := by
  have hlocals := elementsUnder_flatMap VariableDecl.valuesUnder_toJson process.locals
  rw [uids, List.map_cons, List.map_cons, List.map_append, List.map_append, ← hlocals,
    ← process.selfValue.valuesUnder_toJson, ← Statement.elementsUnder_toJson]
  simp [toJson, valuesUnder, membersUnder]

theorem Procedure.valuesUnder_toJson (procedure : Procedure) :
    procedure.toJson.valuesUnder identityKeys = procedure.uids.map Uid.toJson := by
  have hparams := elementsUnder_flatMap VariableDecl.valuesUnder_toJson procedure.params
  have hlocals := elementsUnder_flatMap VariableDecl.valuesUnder_toJson procedure.locals
  rw [uids, List.map_cons, List.map_append, List.map_append, ← hparams, ← hlocals,
    ← Statement.elementsUnder_toJson]
  simp [toJson, valuesUnder, membersUnder]

theorem Algorithm.valuesUnder_toJson (algorithm : Algorithm) :
    algorithm.toJson.valuesUnder identityKeys = algorithm.uids.map Uid.toJson := by
  have hconstants := elementsUnder_flatMap ConstantDecl.valuesUnder_toJson algorithm.constants
  have hglobals := elementsUnder_flatMap VariableDecl.valuesUnder_toJson algorithm.globals
  have hprocedures := elementsUnder_flatMap Procedure.valuesUnder_toJson algorithm.procedures
  have hprocesses := elementsUnder_flatMap Process.valuesUnder_toJson algorithm.processes
  rw [uids, List.map_append, List.map_append, List.map_append, ← hconstants, ← hglobals,
    ← hprocedures, ← hprocesses]
  simp [toJson, valuesUnder, membersUnder]

end Walk

/-! ## Shared uids -/

theorem Uid.toJson_injective : Function.Injective Uid.toJson := by
  intro first second h
  simp only [toJson, Json.integer.injEq, Int.natCast_inj, UInt32.toNat_inj] at h
  cases first
  exact congrArg Uid.mk h

/-- The walk comes to the numbers that an algorithm's JSON has for identities, in the order in which
they are written. So the check of the uids is passed exactly if none of them stands there twice, and
a shared uid is found by it or not at all. -/
theorem Algorithm.uids_exact (algorithm : Algorithm) :
    algorithm.uids.map Uid.toJson = algorithm.toJson.valuesUnder ["uid", "self_decl"] ∧
      (algorithm.checkUids = .ok () ↔
        (algorithm.toJson.valuesUnder ["uid", "self_decl"]).Nodup) ∧
      ((∃ uid, algorithm.resolve = .error (.of (.duplicateUid uid))) ↔
        ¬(algorithm.toJson.valuesUnder ["uid", "self_decl"]).Nodup) ∧
      ∀ uid name location file,
        algorithm.resolve ≠ .error ⟨.registeredTwice uid name, location, file⟩ := by
  have hwalk : algorithm.toJson.valuesUnder ["uid", "self_decl"] = algorithm.uids.map Uid.toJson :=
    algorithm.valuesUnder_toJson
  have hnodup : (algorithm.uids.map Uid.toJson).Nodup ↔ algorithm.uids.Nodup :=
    List.nodup_map_iff Uid.toJson_injective
  -- Where a uid is repeated, resolution ends before anything is registered.
  have hrepeated (hshared : ¬algorithm.uids.Nodup) :
      ∃ uid, algorithm.resolve = .error (.of (.duplicateUid uid)) := by
    rw [← checkUids_ok_iff, checkUids] at hshared
    cases hfirst : Uid.firstRepeated? [] algorithm.uids with
    | none => simp [hfirst] at hshared
    | some uid => exact ⟨uid, by simp [resolve, checkUids, hfirst, bind, Except.bind]⟩
  rw [hwalk, hnodup]
  refine ⟨rfl, algorithm.checkUids_ok_iff, ⟨?_, hrepeated⟩, ?_⟩
  · rintro ⟨uid, herror⟩ hnodup
    have hunshared := algorithm.unshared_resolve hnodup _ herror
    cases hunshared
  · intro uid name location file herror
    by_cases hshared : algorithm.uids.Nodup
    · have hunshared := algorithm.unshared_resolve hshared _ herror
      cases hunshared
    · obtain ⟨repeated, hfound⟩ := hrepeated hshared
      rw [hfound] at herror
      cases herror

end PlusCalGo
