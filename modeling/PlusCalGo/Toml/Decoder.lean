import PlusCalGo.Text.Decimal
import PlusCalGo.Toml.Fault

/-!
# Decoding TOML values

Readers from values to the types of a program. Members are looked at in the order of their names.
-/

namespace PlusCalGo.Toml

abbrev Decoder (α : Type) := Value → Except Mismatch α

namespace Decoder

/-- Why a value is not of the wanted kind. A date counts as a map, and a number has to be of a size
that can be named. -/
def typeCause (wanted : String) : Value → Cause
  | .scalar _ (.string text) => .invalidType (.string text) wanted
  | .scalar _ (.integer n) =>
    if Int64.minValue.toInt ≤ n ∧ n < UInt64.size then .invalidType (.integer n) wanted
    else if -Int.ofNat (Nat.pow 2 127) ≤ n ∧ n < Int.ofNat (Nat.pow 2 128) then
      .invalidType (.wideInteger n) wanted
    else .integerOverflow
  | .scalar _ (.float (some x)) => .invalidType (.float (Text.positionalFloat x)) wanted
  | .scalar _ (.float none) => .floatOverflow
  | .scalar _ (.boolean b) => .invalidType (.bool b) wanted
  | .scalar _ .datetime | .table .. => .invalidType .map wanted
  | .array .. | .tables .. => .invalidType .sequence wanted

def fail {α : Type} (value : Value) (cause : Cause) : Except Mismatch α :=
  .error ⟨value.span, cause⟩

def mismatch {α : Type} (wanted : String) (value : Value) : Except Mismatch α :=
  fail value (typeCause wanted value)

def text (wanted : String) : Decoder String
  | .scalar _ (.string text) => .ok text
  | value => mismatch wanted value

/-- An integer without sign in 64 bits. -/
def unsigned : Decoder UInt64
  | value@(.scalar _ (.integer n)) =>
    if 0 ≤ n ∧ n < UInt64.size then .ok (UInt64.ofNat n.toNat)
    else if Int64.minValue.toInt ≤ n ∧ n < 0 then fail value (.invalidValue (.integer n) "u64")
    else mismatch "u64" value
  | value => mismatch "u64" value

def all {α : Type} (item : Decoder α) : List Value → Except Mismatch (List α)
  | [] => .ok []
  | value :: rest => do
    let first ← item value
    pure (first :: (← all item rest))

def list {α : Type} (item : Decoder α) : Decoder (List α)
  | .array _ elements | .tables _ elements => all item elements
  | value => mismatch "a sequence" value

/-! ## Choices -/

/-- What stands after the name of a choice carries nothing. -/
def emptyContent : Decoder Unit
  | value@(.array _ elements) | value@(.tables _ elements) =>
    if elements.isEmpty then .ok () else fail value .choiceArray
  | value@(.table _ _ members) => if members.isEmpty then .ok () else fail value .choiceTable
  | value@(.scalar _ content) => fail value (.choiceContent (match content with
    | .string _ => "string"
    | .integer _ => "integer"
    | .float _ => "float"
    | .boolean _ => "boolean"
    | .datetime => "datetime"))

def choiceNamed {α : Type} (choices : List (String × α)) (name : String) (span : Span) :
    Except Mismatch α :=
  match choices.find? (·.1 = name) with
  | some choice => .ok choice.2
  | none => .error ⟨span, .unknownVariant name (choices.map (·.1))⟩

/-- One of some names, written as a string or as the only member of a table. -/
def choice {α : Type} (choices : List (String × α)) : Decoder α
  | .scalar span (.string name) => choiceNamed choices name span
  | value@(.table _ _ members) =>
    match members with
    | [] => fail value .emptyChoice
    | [(key, content)] => do
      let chosen ← choiceNamed choices key.name key.span
      emptyContent content
      pure chosen
    | _ => fail value .severalChoices
  | value => fail value .noChoice

/-! ## Records -/

/-- A named part of a record. -/
structure Field (σ : Type) where
  name : String
  read : Value → σ → Except Mismatch σ

def Field.of {σ α : Type} (name : String) (decoder : Decoder α) (set : α → σ → σ) : Field σ :=
  ⟨name, fun value record => do pure (set (← decoder value) record)⟩

def insertByName (entry : Key × Value) : Members → Members
  | [] => [entry]
  | first :: rest =>
    if entry.1.name < first.1.name then entry :: first :: rest
    else first :: insertByName entry rest

def sortByName (members : Members) : Members := members.foldr insertByName []

def readMembers {σ : Type} (fields : List (Field σ)) : Members → σ → Except Mismatch σ
  | [], record => .ok record
  | (key, value) :: rest, record => do
    match fields.find? (·.name = key.name) with
    | none => throw ⟨key.span, .unknownField key.name (fields.map (·.name))⟩
    | some field => readMembers fields rest (← field.read value record)

/-- Values without names go to the fields in order. There may be too few or too many. -/
def readInOrder {σ : Type} : List (Field σ) → List Value → σ → Except Mismatch σ
  | field :: fields, value :: rest, record => do readInOrder fields rest (← field.read value record)
  | _, _, record => .ok record

/-- The name under which a date hands out its only member. -/
def datetimeMember : String := "$__toml_private_datetime"

def table {σ : Type} (fields : List (Field σ)) (start : σ) (members : Members) :
    Except Mismatch σ := readMembers fields (sortByName members) start

/-- A record whose fields keep their start values unless the document has others. -/
def record {σ : Type} (wanted : String) (fields : List (Field σ)) (start : σ) : Decoder σ
  | .table _ _ members => table fields start members
  | .array _ elements | .tables _ elements => readInOrder fields elements start
  | value@(.scalar _ .datetime) =>
    fail value (.unknownField datetimeMember (fields.map (·.name)))
  | value => mismatch wanted value

end Decoder

end PlusCalGo.Toml
