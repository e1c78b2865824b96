import PlusCalGo.Proofs.Expressions.Arithmetic
import PlusCalGo.Proofs.Expressions.Sequences

/-!
# Expressions and the variables around them

The text of an expression names what the expression names, and some constants and functions of Go.
Variables around it that have other names do not matter to its value. Integer and boolean
expressions have their values of TLA+ wherever variables hold theirs.
-/

namespace PlusCalGo

open Go

/-! ## Names in a text -/

/-- The names of Go's own in the texts of expressions. -/
def Go.ownNames : List String := ["true", "false", "len", "append"]

namespace Go.Term

variable {change : Term → Term} {more : List String} {name : String}

theorem mem_names_onCore (hchange : ∀ term, name ∈ (change term).names →
    name ∈ term.names ∨ name ∈ more) : (term : Term) →
    name ∈ (term.onCore change).names → name ∈ term.names ∨ name ∈ more
  | unary _ operand, h => mem_names_onCore hchange operand h
  | int _, h | text _, h | Term.name _, h | binary .., h | index .., h | slice .., h | call .., h
  | ints _, h | choose .., h => hchange _ h

end Go.Term

namespace Expression

section Names

variable {definitions : Definitions} {name : String}

theorem mem_names_readSubscript {oneBased : Bool} {function key : Term}
    (h : name ∈ (readSubscript oneBased function key).names) :
    name ∈ function.names ∨ name ∈ key.names := by
  refine Term.mem_names_onCore (fun core hcore => ?_) function h
  cases oneBased <;> simpa [subscriptTerm, Term.names] using hcore

theorem mem_names_subscripts {oneBased : Bool} {root : Term} {keys : List Term}
    (h : name ∈ (keys.foldl (readSubscript oneBased) root).names) :
    name ∈ root.names ∨ name ∈ Term.listNames keys := by
  induction keys generalizing root with
  | nil => exact .inl h
  | cons key keys ih =>
    rw [Term.listNames, List.mem_append]
    rcases ih h with hfirst | hrest
    · exact (mem_names_readSubscript hfirst).imp_right .inl
    · exact .inr (.inr hrest)

theorem mem_names_readApply {operator : String} {args : List Term}
    (h : name ∈ (readApply operator args).names) :
    name ∈ operator :: Term.listNames args ∨ name ∈ ownNames := by
  have hcore {sequence : Term} {change : Term → Term}
      (hchange : ∀ core, name ∈ (change core).names → name ∈ core.names ∨ name ∈ [])
      (hname : name ∈ (sequence.onCore change).names) : name ∈ Term.listNames [sequence] := by
    simpa [Term.listNames] using Term.mem_names_onCore hchange sequence hname
  unfold readApply at h
  split at h
  · exact .inl (List.mem_cons_of_mem _ (hcore (by simp [Term.names]) h))
  · exact .inl (List.mem_cons_of_mem _ (hcore (by simp [Term.names]) h))
  · unfold applyTerm at h
    split at h
    · exact (List.mem_cons.1 h).symm.imp (List.mem_cons_of_mem _) (by simp +contextual [ownNames])
    · exact (List.mem_cons.1 h).symm.imp (List.mem_cons_of_mem _) (by simp +contextual [ownNames])
    · simp_all
    · simp_all
    · exact .inl h

mutual

/-- The text of an expression has no names but those of the expression and some of Go's own. -/
theorem mem_names_readTerm (expression : Expression) {term : Term}
    (hterm : expression.readTerm definitions = some term) (h : name ∈ term.names) :
    name ∈ expression.names ∨ name ∈ ownNames := by
  cases expression with
  | number uid value =>
    cases hterm
    unfold numberTerm at h
    split at h <;> cases h
  | bool uid value =>
    cases hterm
    cases value <;> simp_all [Term.names, ownNames]
  | string uid value =>
    obtain ⟨_, hterm⟩ := Option.ite_none_right_eq_some.1 hterm
    cases hterm
    cases h
  | identifier uid word =>
    cases hterm
    exact .inl h
  | index uid function params =>
    obtain ⟨root, hroot, hterm⟩ := Option.bind_eq_some_iff.1 hterm
    obtain ⟨keys, hkeys, hterm⟩ := Option.bind_eq_some_iff.1 hterm
    cases hterm
    rw [names, List.mem_append]
    rcases mem_names_subscripts h with hfunction | hparams
    · exact (mem_names_readTerm function hroot hfunction).imp_left .inl
    · exact (mem_names_listReadTerms params hkeys hparams).imp_left .inr
  | binary uid op lhs rhs =>
    obtain ⟨left, hleft, hterm⟩ := Option.bind_eq_some_iff.1 hterm
    obtain ⟨right, hright, hterm⟩ := Option.bind_eq_some_iff.1 hterm
    cases hterm
    rw [names, List.mem_append]
    rcases List.mem_append.1 h with hlhs | hrhs
    · exact (mem_names_readTerm lhs hleft hlhs).imp_left .inl
    · exact (mem_names_readTerm rhs hright hrhs).imp_left .inr
  | unary uid op operand =>
    cases op with
    | not =>
      obtain ⟨inner, hinner, rfl⟩ := Option.map_eq_some_iff.1 hterm
      exact mem_names_readTerm operand hinner h
    | negate =>
      obtain ⟨inner, hinner, hterm⟩ := Option.bind_eq_some_iff.1 hterm
      obtain ⟨_, hterm⟩ := Option.ite_none_left_eq_some.1 hterm
      cases hterm
      exact mem_names_readTerm operand hinner h
  | tuple uid elements =>
    obtain ⟨inner, hinner, rfl⟩ := Option.map_eq_some_iff.1 hterm
    exact mem_names_listReadTerms elements hinner h
  | ifElse uid condition yes no =>
    obtain ⟨first, hfirst, hterm⟩ := Option.bind_eq_some_iff.1 hterm
    obtain ⟨second, hsecond, hterm⟩ := Option.bind_eq_some_iff.1 hterm
    obtain ⟨third, hthird, hterm⟩ := Option.bind_eq_some_iff.1 hterm
    cases hterm
    simp only [names, List.mem_append]
    simp only [Term.names, List.mem_append] at h
    rcases h with (hcondition | hyes) | hno
    · exact (mem_names_readTerm condition hfirst hcondition).imp_left fun h => .inl (.inl h)
    · exact (mem_names_readTerm yes hsecond hyes).imp_left fun h => .inl (.inr h)
    · exact (mem_names_readTerm no hthird hno).imp_left .inr
  | apply uid operator args =>
    obtain ⟨inner, hinner, rfl⟩ := Option.map_eq_some_iff.1 hterm
    rw [names, List.mem_cons]
    rcases mem_names_readApply h with hown | hown
    · rcases List.mem_cons.1 hown with rfl | hargs
      · exact .inl (.inl rfl)
      · exact (mem_names_listReadTerms args hinner hargs).imp_left .inr
    · exact .inr hown

theorem mem_names_listReadTerms (expressions : List Expression) {terms : List Term}
    (hterms : listReadTerms definitions expressions = some terms)
    (h : name ∈ Term.listNames terms) : name ∈ listNames expressions ∨ name ∈ ownNames := by
  cases expressions with
  | nil =>
    cases hterms
    cases h
  | cons expression rest =>
    obtain ⟨first, hfirst, hterms⟩ := Option.bind_eq_some_iff.1 hterms
    obtain ⟨others, hothers, hterms⟩ := Option.bind_eq_some_iff.1 hterms
    cases hterms
    rw [listNames, List.mem_append]
    rcases List.mem_append.1 h with hhead | hrest
    · exact (mem_names_readTerm expression hfirst hhead).imp_left .inl
    · exact (mem_names_listReadTerms rest hothers hrest).imp_left .inr

end

end Names

/-! ## Values -/

section Values

variable {definitions : Definitions} {functions : Functions}
  {temporaries : functions.runtime.Temporaries} {expression : Expression} {memory : Memory}

/-- The text of an expression has the value of what it is read as. -/
theorem goEval_of_toGo (hnames : ∀ name ∈ expression.names, IsName name) {text : String}
    (htext : expression.toGo definitions = .ok text) :
    expression.goEval definitions functions temporaries memory =
      (expression.readTerm definitions).bind fun term =>
        functions.runtime.eval temporaries term memory := by
  have hread : read text = expression.readTerm definitions :=
    (readAs_toGo expression hnames htext).read
  rw [goEval, htext, ← hread]
  rfl

/-- Variables that have other names do not matter. -/
theorem goEval_of_unnamed (hnames : ∀ name ∈ expression.names, IsName name)
    (hfree : ∀ name ∈ expression.names ++ ownNames, temporaries.lookup name = none) :
    expression.goEval definitions functions temporaries memory =
      expression.goEval definitions functions [] memory := by
  cases htext : expression.toGo definitions with
  | error problem => rw [goEval, goEval, htext]
  | ok text =>
    rw [goEval_of_toGo hnames htext, goEval_of_toGo hnames htext]
    cases hterm : expression.readTerm definitions with
    | none => rfl
    | some term =>
      refine Runtime.eval_of_unnamed term (fun name hname => hfree name ?_) memory
      exact List.mem_append.2 (mem_names_readTerm expression hterm hname)

end Values

end Expression

namespace Go.Runtime

variable {runtime : Runtime} {temporaries : runtime.Temporaries} {op : String} {first second : Term}
  {value result : runtime.Value} {store after : runtime.Store}

theorem eval_unary (hfirst : runtime.eval temporaries first store = some (value, after)) :
    runtime.eval temporaries (.unary op first) store =
      (runtime.unary op value).map fun result => (result, after) := by
  simp only [eval, hfirst, Option.bind_eq_bind, Option.bind_some]
  cases runtime.unary op value <;> rfl

/-- An operation whose left operand decides it. -/
theorem eval_decided (hfirst : runtime.eval temporaries first store = some (value, after))
    (hdecides : runtime.decides? op value = some result) :
    runtime.eval temporaries (.binary op first second) store = some (result, after) := by
  simp only [eval, hfirst, hdecides, Option.bind_eq_bind, Option.bind_some]
  rfl

end Go.Runtime

namespace Go.Functions

variable {functions : Functions} {temporaries : functions.runtime.Temporaries}
  {scope : String → Value} {memory between after : Memory} {op : String} {lhs rhs operand : Term}
  {left right inner : Value}

/-- An operation on a scalar. -/
theorem eval_unary
    (hoperand : functions.runtime.eval temporaries operand memory = some (.scalar inner, after)) :
    functions.runtime.eval temporaries (.unary op operand) memory =
      (inner.unary op).map fun value => (.scalar value, after) := by
  have hunary : functions.runtime.unary op (.scalar inner) = (inner.unary op).map .scalar := rfl
  rw [Runtime.eval_unary hoperand, hunary]
  cases inner.unary op <;> rfl

theorem decides?_scalar (value : Value) : functions.runtime.decides? op (.scalar value) =
    (value.decides? op).map fun result => .scalar (.bool result) := rfl

/-- An operation on two scalars, whose left operand does not decide it. -/
theorem eval_binary
    (hlhs : functions.runtime.eval temporaries lhs memory = some (.scalar left, between))
    (hdecides : left.decides? op = none)
    (hrhs : functions.runtime.eval temporaries rhs between = some (.scalar right, after)) :
    functions.runtime.eval temporaries (.binary op lhs rhs) memory =
      (left.binary op right).map fun value => (.scalar value, after) := by
  have hbinary : functions.runtime.binary op (.scalar left) (.scalar right) =
      (left.binary op right).map .scalar := rfl
  rw [Runtime.eval_binary hlhs (by rw [decides?_scalar, hdecides]; rfl) hrhs, hbinary]
  cases left.binary op right <;> rfl

/-- The variables hold the values that they have in a scope, and the constants of Go their own. -/
def Holds (memory : Memory) (scope : String → Value) : Prop :=
  ∀ name, memory (.named name) = .scalar
    (if name = "true" then .bool true else if name = "false" then .bool false else scope name)

/-- Scalar expressions have their values in a memory that holds those of their variables. -/
theorem eval_of_value (hmemory : Holds memory scope) (term : Term) {value : Value}
    (h : term.value scope = some value) :
    functions.runtime.eval [] term memory = some (.scalar value, memory) := by
  cases term with
  | int number =>
    cases h
    rfl
  | name word =>
    cases h
    exact congrArg (fun datum => some (datum, memory)) (hmemory word)
  | unary op operand =>
    obtain ⟨inner, hinner, h⟩ := Option.bind_eq_some_iff.1 h
    rw [eval_unary (eval_of_value hmemory operand hinner), h, Option.map_some]
  | binary op lhs rhs =>
    obtain ⟨left, hleft, h⟩ := Option.bind_eq_some_iff.1 h
    have hlhs := eval_of_value hmemory lhs hleft
    split at h
    · rename_i decision hdecides
      obtain ⟨_, h⟩ := Option.ite_none_right_eq_some.1 h
      cases h
      exact Runtime.eval_decided hlhs (by rw [decides?_scalar, hdecides]; rfl)
    · rename_i hdecides
      obtain ⟨right, hright, h⟩ := Option.bind_eq_some_iff.1 h
      rw [eval_binary hlhs hdecides (eval_of_value hmemory rhs hright), h, Option.map_some]
  | text | index | slice | call | ints | choose => cases h

end Go.Functions

namespace Expression

/-- The text has the integer value in all memories of a sort, and its evaluation leaves one. -/
def Amounts (definitions : Definitions) (functions : Functions)
    (temporaries : functions.runtime.Temporaries) (stable : Memory → Prop)
    (expression : Expression) (amount : Int) : Prop :=
  ∀ memory, stable memory → ∃ value after,
    expression.goEval definitions functions temporaries memory = some (.scalar value, after) ∧
      value.Is (.int amount) ∧ stable after

section Amounts

variable {definitions : Definitions} {functions : Functions}
  {temporaries : functions.runtime.Temporaries} {stable : Memory → Prop} {values : String → Scalar}
  {expression : Expression} {amount : Int} {memory : Memory}

/-- Variables that have other names do not matter. -/
theorem Amounts.of_unnamed (h : expression.Amounts definitions functions [] stable amount)
    (hnames : ∀ name ∈ expression.names, IsName name)
    (hfree : ∀ name ∈ expression.names ++ ownNames, temporaries.lookup name = none) :
    expression.Amounts definitions functions temporaries stable amount := by
  intro memory hmemory
  rw [goEval_of_unnamed hnames hfree]
  exact h memory hmemory

/-- The value is that of the tree that the text is read as. -/
theorem Amounts.exists_term
    (h : expression.Amounts definitions functions temporaries stable amount)
    (hnames : ∀ name ∈ expression.names, IsName name) {text : String}
    (htext : expression.toGo definitions = .ok text) (hmemory : stable memory) :
    ∃ term value after, Prints text term ∧
      functions.runtime.eval temporaries term memory = some (.scalar value, after) ∧
      value.Is (.int amount) ∧ stable after := by
  obtain ⟨value, after, hvalue, hamount, hafter⟩ := h memory hmemory
  rw [goEval_of_toGo hnames htext] at hvalue
  obtain ⟨term, hterm, hvalue⟩ := Option.bind_eq_some_iff.1 hvalue
  have hread := readAs_toGo expression hnames htext
  rw [hterm] at hread
  exact ⟨term, value, after, hread, hvalue, hamount, hafter⟩

/-- An integer expression amounts to its value of TLA+, if all divisions in it are even. -/
theorem amounts_of_value (hvalue : expression.value values = some (.int amount))
    (h : expression.Representable values) (hprintable : expression.Printable definitions)
    (heven : ∀ part ∈ expression.parts, part.DividesEvenly values) :
    expression.Amounts definitions functions []
      (Functions.Holds · fun name => .ofScalar (values name)) amount := by
  intro memory hmemory
  obtain ⟨known, hkind⟩ := kind_of_value expression hvalue
  obtain ⟨text, htext⟩ : ∃ text, expression.toGo definitions = .ok text :=
    toGo_of_kind expression hkind
  obtain ⟨value, hgo, hamount⟩ := parts_keep expression h heven expression (mem_parts _) _ hvalue
  refine ⟨value, memory, ?_, hamount, hmemory⟩
  rw [goEval_of_toGo (names_of_printable expression hprintable) htext,
    readTerm_of_printable expression hprintable, Option.bind_some]
  exact Functions.eval_of_value hmemory _ hgo

end Amounts

end Expression

end PlusCalGo
