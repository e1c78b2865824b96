/-!
# TOML documents

Values with their places in the text, and the rules by which headers and dotted keys build up the
tables of a document.
-/

namespace PlusCalGo.Toml

/-- A stretch of text, in bytes from its start. -/
structure Span where
  start : Nat
  stop : Nat
deriving DecidableEq, Inhabited

structure Key where
  name : String
  span : Span
deriving DecidableEq, Inhabited

inductive Scalar where
  | string (text : String)
  | integer (value : Int)
  /-- A number that is too large for a float has no value. -/
  | float (value : Option Float)
  | boolean (value : Bool)
  | datetime
deriving Inhabited

/-- How a table came to be: from its header, on the way to a header below it, from a dotted key, or
written inline. -/
inductive TableKind where
  | header
  | implied
  | dotted
  | inline
deriving DecidableEq, Inhabited

/-- `tables` is an array whose elements have headers. -/
inductive Value where
  | scalar (span : Span) (content : Scalar)
  | array (span : Span) (elements : List Value)
  | tables (span : Span) (elements : List Value)
  | table (span : Span) (kind : TableKind) (members : List (Key × Value))
deriving Inhabited

def Value.span : Value → Span
  | scalar span _ | array span _ | tables span _ | table span _ _ => span

abbrev Members := List (Key × Value)

namespace Members

def value? (members : Members) (name : String) : Option Value :=
  (List.find? (fun entry => entry.1.name = name) members).map (·.2)

/-- Puts another value in the place of the one a key has. -/
def replace (members : Members) (name : String) (value : Value) : Members :=
  members.map fun (key, old) => if key.name = name then (key, value) else (key, old)

/-- Puts another key and value in the place of those a name has. -/
def redefine (members : Members) (key : Key) (value : Value) : Members :=
  members.map fun (old, oldValue) => if old.name = key.name then (key, value) else (old, oldValue)

/-- Changes the last element of an array of tables. -/
def editLast (edit : TableKind → Members → Option Members) : List Value → Option (List Value)
  | [] => none
  | [.table span kind members] => do pure [.table span kind (← edit kind members)]
  | [_] => none
  | first :: second :: rest => do pure (first :: (← editLast edit (second :: rest)))

/-- Changes the table at the end of a path, and makes the tables that are missing on the way. Inline
tables are closed; a dotted key does not go through a table with a header, and an implied table it
goes through counts as made by it. -/
def editAt (dotted : Bool) (edit : TableKind → Members → Option Members) :
    List Key → TableKind → Members → Option Members
  | [], kind, members => edit kind members
  | key :: path, _, members =>
    let newKind := if dotted then TableKind.dotted else .implied
    match members.value? key.name with
    | none => do
      let inner ← editAt dotted edit path newKind []
      pure (members ++ [(key, .table key.span newKind inner)])
    | some (.table span kind inner) =>
      if kind = .inline ∨ (dotted ∧ kind = .header) then none
      else do
        let kind := if dotted then .dotted else kind
        pure (members.replace key.name (.table span kind (← editAt dotted edit path kind inner)))
    | some (.tables span elements) => do
      pure (members.replace key.name (.tables span (← editLast (editAt dotted edit path) elements)))
    | some _ => none

/-- Gives a dotted key its value. A table that dotted keys have made takes members from dotted keys
only. -/
def insertDotted (path : List Key) (key : Key) (value : Value) (kind : TableKind)
    (members : Members) : Option Members :=
  editAt true (fun kind members =>
    if (kind = .dotted) = (path = []) ∨ (members.value? key.name).isSome then none
    else some (members ++ [(key, value)])) path kind members

/-- Gives a dotted key its value in the table of the latest header. -/
def insert (header : List Key) (path : List Key) (key : Key) (value : Value) (members : Members) :
    Option Members :=
  editAt false (insertDotted path key value) header .header members

/-- Opens the table of a header. It may only exist as one implied by a header below it. -/
def openTable (path : List Key) (key : Key) (span : Span) (members : Members) : Option Members :=
  editAt false (fun _ members =>
    match members.value? key.name with
    | none => some (members ++ [(key, .table span .header [])])
    | some (.table _ .implied inner) => some (members.redefine key (.table span .header inner))
    | some _ => none) path .header members

/-- Adds a table to the array of a doubled header. -/
def openElement (path : List Key) (key : Key) (span : Span) (members : Members) : Option Members :=
  editAt false (fun _ members =>
    let element := Value.table span .header []
    match members.value? key.name with
    | none => some (members ++ [(key, .tables span [element])])
    | some (.tables span elements) =>
      some (members.replace key.name (.tables span (elements ++ [element])))
    | some _ => none) path .header members

end Members

end PlusCalGo.Toml
