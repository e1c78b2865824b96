import PlusCalGo.Proofs.Expressions.Terms

/-!
# Evaluation

Go expressions evaluated in a store. What values are, where elements lie and what the operators and
functions compute is left open; calls and literals may change the store. Temporaries are variables
of a block, which functions do not see.
-/

namespace PlusCalGo.Go

/-- A place that holds a value: a variable, or an element of an array or a map. -/
inductive Cell (Address : Type) where
  | named (name : String)
  | element (address : Address)
deriving DecidableEq

/-- The values of Go, and what is done with them. Where there is no result, the program panics. -/
structure Runtime where
  Value : Type
  Address : Type
  [decidableAddress : DecidableEq Address]
  int : Nat → Value
  text : String → Value
  unary : String → Value → Option Value
  binary : String → Value → Value → Option Value
  /-- The left operand decides a conjunction or disjunction. -/
  decides? : String → Value → Option Value
  isTrue? : Value → Option Bool
  /-- Where the element of an array or a map at a key lies. -/
  element : Value → Value → Option Address
  /-- The elements of maps that were never made can be read, but not assigned. -/
  fixed : Address → Bool
  slice : Value → Value → Option Value
  call : String → List Value → (Cell Address → Value) → Option (Value × (Cell Address → Value))
  ints : List Value → (Cell Address → Value) → Option (Value × (Cell Address → Value))

namespace Runtime

instance (runtime : Runtime) : DecidableEq runtime.Address := runtime.decidableAddress

/-- What all cells hold. -/
abbrev Store (runtime : Runtime) : Type := Cell runtime.Address → runtime.Value

abbrev Temporaries (runtime : Runtime) : Type := List (String × runtime.Value)

section Evaluation

variable (runtime : Runtime) (temporaries : runtime.Temporaries)

mutual

/-- The value of an expression, and the store behind its evaluation. -/
def eval : Term → runtime.Store → Option (runtime.Value × runtime.Store)
  | .int value, store => some (runtime.int value, store)
  | .text value, store => some (runtime.text value, store)
  | .name name, store =>
    some ((temporaries.lookup name).getD (store (.named name)), store)
  | .unary op operand, store => do
    let (operand, store) ← eval operand store
    pure (← runtime.unary op operand, store)
  | .binary op lhs rhs, store => do
    let (left, store) ← eval lhs store
    match runtime.decides? op left with
    | some result => pure (result, store)
    | none =>
      let (right, store) ← eval rhs store
      pure (← runtime.binary op left right, store)
  | .index function key, store => do
    let (function, store) ← eval function store
    let (key, store) ← eval key store
    pure (store (.element (← runtime.element function key)), store)
  | .slice function low, store => do
    let (function, store) ← eval function store
    let (low, store) ← eval low store
    pure (← runtime.slice function low, store)
  | .call (.name name) args, store => do
    let (args, store) ← evalAll args store
    runtime.call name args store
  | .call .., _ => none
  | .ints elements, store => do
    let (elements, store) ← evalAll elements store
    runtime.ints elements store
  | .choose condition yes no, store => do
    let (condition, store) ← eval condition store
    if ← runtime.isTrue? condition then eval yes store else eval no store

def evalAll : List Term → runtime.Store → Option (List runtime.Value × runtime.Store)
  | [], store => some ([], store)
  | term :: rest, store => do
    let (value, store) ← eval term store
    let (values, store) ← evalAll rest store
    pure (value :: values, store)

end

/-- The cell that an assignment to an expression changes. -/
def locate : Term → runtime.Store → Option (Cell runtime.Address × runtime.Store)
  | .name name, store => some (.named name, store)
  | .index function key, store => do
    let (function, store) ← runtime.eval temporaries function store
    let (key, store) ← runtime.eval temporaries key store
    let address ← runtime.element function key
    if runtime.fixed address then none else pure (.element address, store)
  | _, _ => none

end Evaluation

variable {runtime : Runtime} {temporaries : runtime.Temporaries}

section Operands

variable {first second : Term} {left right : runtime.Value} {store between after : runtime.Store}

theorem eval_index (hfirst : runtime.eval temporaries first store = some (left, between))
    (hsecond : runtime.eval temporaries second between = some (right, after)) :
    runtime.eval temporaries (.index first second) store =
      (runtime.element left right).map fun address => (after (.element address), after) := by
  simp only [eval, hfirst, hsecond, Option.bind_eq_bind, Option.bind_some]
  cases runtime.element left right <;> rfl

theorem eval_index_eq_none (hfirst : runtime.eval temporaries first store = none) :
    runtime.eval temporaries (.index first second) store = none := by
  rw [eval, hfirst]
  rfl

theorem eval_slice (hfirst : runtime.eval temporaries first store = some (left, between))
    (hsecond : runtime.eval temporaries second between = some (right, after)) :
    runtime.eval temporaries (.slice first second) store =
      (runtime.slice left right).map fun value => (value, after) := by
  simp only [eval, hfirst, hsecond, Option.bind_eq_bind, Option.bind_some]
  cases runtime.slice left right <;> rfl

/-- An operation whose left operand does not decide it. -/
theorem eval_binary {op : String}
    (hfirst : runtime.eval temporaries first store = some (left, between))
    (hdecides : runtime.decides? op left = none)
    (hsecond : runtime.eval temporaries second between = some (right, after)) :
    runtime.eval temporaries (.binary op first second) store =
      (runtime.binary op left right).map fun value => (value, after) := by
  simp only [eval, hfirst, hdecides, hsecond, Option.bind_eq_bind, Option.bind_some]
  cases runtime.binary op left right <;> rfl

end Operands

/-- Only variables lead to the cells of variables. -/
theorem eq_name_of_locate {term : Term} {store after : runtime.Store} {name : String}
    (h : runtime.locate temporaries term store = some (.named name, after)) :
    term = .name name := by
  cases term with
  | name other =>
    cases h
    rfl
  | index function key =>
    obtain ⟨⟨array, between⟩, -, h⟩ := Option.bind_eq_some_iff.1 h
    obtain ⟨⟨index, last⟩, -, h⟩ := Option.bind_eq_some_iff.1 h
    obtain ⟨address, -, h⟩ := Option.bind_eq_some_iff.1 h
    obtain ⟨-, h⟩ := Option.ite_none_left_eq_some.1 h
    cases h
  | _ => cases h

/-! ## Stores -/

def Store.set (store : runtime.Store) (cell : Cell runtime.Address) (value : runtime.Value) :
    runtime.Store :=
  fun other => if other = cell then value else store other

/-- The store after all of some cells are changed at once. Of several values for one cell the last
one counts. -/
def Store.setAll (store : runtime.Store) (writes : List (Cell runtime.Address × runtime.Value)) :
    runtime.Store :=
  fun cell => (writes.reverse.lookup cell).getD (store cell)

@[simp]
theorem Store.setAll_nil (store : runtime.Store) : store.setAll [] = store := rfl

theorem Store.setAll_cons (store : runtime.Store) (cell : Cell runtime.Address)
    (value : runtime.Value) (writes : List (Cell runtime.Address × runtime.Value)) :
    store.setAll ((cell, value) :: writes) = (store.set cell value).setAll writes := by
  funext other
  simp only [setAll, List.reverse_cons, List.lookup_append]
  cases hlater : writes.reverse.lookup other with
  | some later => simp
  | none =>
    by_cases hsame : other = cell
    · simp [set, hsame]
    · simp [set, List.lookup_cons, hsame, beq_false_of_ne hsame]

end Runtime

/-! ## Names -/

namespace Term

mutual

/-- The names in an expression. -/
def names : Term → List String
  | int _ | text _ => []
  | name word => [word]
  | unary _ operand => operand.names
  | binary _ lhs rhs => lhs.names ++ rhs.names
  | index function key => function.names ++ key.names
  | slice function low => function.names ++ low.names
  | call function args => function.names ++ listNames args
  | ints elements => listNames elements
  | choose condition yes no => condition.names ++ yes.names ++ no.names

def listNames : List Term → List String
  | [] => []
  | term :: rest => term.names ++ listNames rest

end

end Term

namespace Runtime

variable {runtime : Runtime} {temporaries : runtime.Temporaries}

mutual

/-- Temporaries that an expression does not name do not matter to it. -/
theorem eval_of_unnamed (term : Term) (h : ∀ name ∈ term.names, temporaries.lookup name = none)
    (store : runtime.Store) : runtime.eval temporaries term store = runtime.eval [] term store := by
  cases term with
  | int value | text value => rfl
  | name name => simp [eval, h name (by simp [Term.names])]
  | unary op operand =>
    have hoperand := eval_of_unnamed operand h
    simp only [eval, hoperand]
  | binary op lhs rhs =>
    simp only [Term.names, List.forall_mem_append] at h
    have hlhs := eval_of_unnamed lhs h.1
    have hrhs := eval_of_unnamed rhs h.2
    simp only [eval, hlhs, hrhs]
  | index function key =>
    simp only [Term.names, List.forall_mem_append] at h
    have hfunction := eval_of_unnamed function h.1
    have hkey := eval_of_unnamed key h.2
    simp only [eval, hfunction, hkey]
  | slice function low =>
    simp only [Term.names, List.forall_mem_append] at h
    have hfunction := eval_of_unnamed function h.1
    have hlow := eval_of_unnamed low h.2
    simp only [eval, hfunction, hlow]
  | call function args =>
    simp only [Term.names, List.forall_mem_append] at h
    have hargs := evalAll_of_unnamed args h.2
    cases function with
    | name name => simp only [eval, hargs]
    | _ => rfl
  | ints elements =>
    have helements := evalAll_of_unnamed elements h
    simp only [eval, helements]
  | choose condition yes no =>
    simp only [Term.names, List.forall_mem_append] at h
    have hcondition := eval_of_unnamed condition h.1.1
    have hyes := eval_of_unnamed yes h.1.2
    have hno := eval_of_unnamed no h.2
    simp only [eval, hcondition, hyes, hno]

theorem evalAll_of_unnamed (terms : List Term)
    (h : ∀ name ∈ Term.listNames terms, temporaries.lookup name = none) (store : runtime.Store) :
    runtime.evalAll temporaries terms store = runtime.evalAll [] terms store := by
  cases terms with
  | nil => rfl
  | cons term rest =>
    simp only [Term.listNames, List.forall_mem_append] at h
    have hfirst := eval_of_unnamed term h.1
    have hrest := evalAll_of_unnamed rest h.2
    simp only [evalAll, hfirst, hrest]

end

theorem locate_of_unnamed (term : Term) (h : ∀ name ∈ term.names, temporaries.lookup name = none)
    (store : runtime.Store) :
    runtime.locate temporaries term store = runtime.locate [] term store := by
  cases term with
  | index function key =>
    simp only [Term.names, List.forall_mem_append] at h
    have hfunction := eval_of_unnamed function h.1
    have hkey := eval_of_unnamed key h.2
    simp only [locate, hfunction, hkey]
  | _ => rfl

end Runtime

/-! ## Plain expressions -/

namespace Term

/-- Only variables, numbers and operators. -/
def isPlain : Term → Bool
  | int _ | text _ | name _ => true
  | unary _ operand => operand.isPlain
  | binary _ lhs rhs => lhs.isPlain && rhs.isPlain
  | _ => false

/-- A variable, or an element of one at a plain subscript. -/
def isDirect : Term → Bool
  | name _ => true
  | index (name _) key => key.isPlain
  | _ => false

/-- The variables that an assignment to the expression reads to find the cell. -/
def readNames : Term → List String
  | name _ => []
  | term => term.names

end Term

namespace Runtime

variable {runtime : Runtime} {store other : runtime.Store}

/-- Plain expressions change nothing and depend on the variables they name. -/
theorem eval_plain (term : Term) (hplain : term.isPlain = true)
    (h : ∀ name ∈ term.names, other (.named name) = store (.named name))
    {value : runtime.Value} {after : runtime.Store}
    (heval : runtime.eval [] term store = some (value, after)) :
    after = store ∧ runtime.eval [] term other = some (value, other) := by
  cases term with
  | int | text =>
    cases heval
    exact ⟨rfl, rfl⟩
  | name name =>
    cases heval
    exact ⟨rfl, by simp [eval, h name (by simp [Term.names])]⟩
  | unary op operand =>
    obtain ⟨⟨inner, between⟩, hinner, heval⟩ := Option.bind_eq_some_iff.1 heval
    obtain ⟨result, hresult, heval⟩ := Option.bind_eq_some_iff.1 heval
    cases heval
    obtain ⟨rfl, hoperand⟩ := eval_plain operand hplain h hinner
    exact ⟨rfl, by simp [eval, hoperand, hresult]⟩
  | binary op lhs rhs =>
    obtain ⟨hlhsPlain, hrhsPlain⟩ : lhs.isPlain = true ∧ rhs.isPlain = true := by
      simpa [Term.isPlain] using hplain
    simp only [Term.names, List.forall_mem_append] at h
    obtain ⟨⟨left, between⟩, hleft, hrest⟩ := Option.bind_eq_some_iff.1 heval
    have ihrhs {value : runtime.Value} {after : runtime.Store} :
        runtime.eval [] rhs store = some (value, after) →
          after = store ∧ runtime.eval [] rhs other = some (value, other) :=
      eval_plain rhs hrhsPlain h.2
    obtain ⟨rfl, hlhs⟩ := eval_plain lhs hlhsPlain h.1 hleft
    dsimp only at hrest
    split at hrest
    · rename_i hdecides
      cases hrest
      exact ⟨rfl, by simp [eval, hlhs, hdecides]⟩
    · rename_i hdecides
      obtain ⟨⟨right, last⟩, hright, hrest⟩ := Option.bind_eq_some_iff.1 hrest
      obtain ⟨result, hresult, hrest⟩ := Option.bind_eq_some_iff.1 hrest
      cases hrest
      obtain ⟨rfl, hrhs⟩ := ihrhs hright
      exact ⟨rfl, by simp [eval, hlhs, hdecides, hrhs, hresult]⟩
  | _ => cases hplain

/-- Where an expression leads directly depends on the variables in its subscript. -/
theorem locate_direct {term : Term} (hdirect : term.isDirect = true)
    (h : ∀ name ∈ term.readNames, other (.named name) = store (.named name))
    {cell : Cell runtime.Address} {after : runtime.Store}
    (hlocate : runtime.locate [] term store = some (cell, after)) :
    after = store ∧ runtime.locate [] term other = some (cell, other) := by
  cases term with
  | name name =>
    cases hlocate
    exact ⟨rfl, rfl⟩
  | index function key =>
    cases function with
    | name name =>
      simp only [Term.readNames, Term.names, List.singleton_append, List.forall_mem_cons] at h
      obtain ⟨⟨index, between⟩, hkey, hlocate⟩ := Option.bind_eq_some_iff.1 hlocate
      obtain ⟨rfl, hother⟩ := eval_plain key hdirect h.2 hkey
      obtain ⟨address, haddress, hlocate⟩ := Option.bind_eq_some_iff.1 hlocate
      obtain ⟨hassignable, hlocate⟩ := Option.ite_none_left_eq_some.1 hlocate
      cases hlocate
      have hfunction : runtime.element (other (.named name)) index = some address := by
        simpa [h.1] using haddress
      exact ⟨rfl, by simp [locate, eval, hother, hfunction, hassignable]⟩
    | _ => cases hdirect
  | _ => cases hdirect

end Runtime

end PlusCalGo.Go
