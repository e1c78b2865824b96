import PlusCalGo.Json.Skip

/-!
# Readers of typed values

Records, lists and choices read straight from JSON text. A record is an object, or a list of its
fields in order. A choice is an object with one member, or just a name. Readers of values with
brackets take how many brackets may still be opened.
-/

namespace PlusCalGo.Json

open Text (byteLength)

namespace Reader

/-- How many brackets may be open at once. -/
def depthLimit : Nat := 127

/-- Fails because another kind of value stands here; the value is read first. -/
def mismatch {α : Type} (wanted : String) : Reader α := do
  match ← peek with
  | none => failNext .expectedValue
  | some c =>
    if c = 'n' then do
      advance; word ['u', 'l', 'l']; failHere (.invalidType .null wanted)
    else if c = 't' then do
      advance; word ['r', 'u', 'e']; failHere (.invalidType (.bool true) wanted)
    else if c = 'f' then do
      advance; word ['a', 'l', 's', 'e']; failHere (.invalidType (.bool false) wanted)
    else if c = '-' then do
      advance; failHere (.invalidType (← numberBody true).found wanted)
    else if c.isDigit then do failHere (.invalidType (← numberBody false).found wanted)
    else if c = '\"' then do
      advance; failHere (.invalidType (.string (← stringBody)) wanted)
    else if c = '[' then failHere (.invalidType .sequence wanted)
    else if c = '\x7b' then failHere (.invalidType .map wanted)
    else failNext .expectedValue

/-- The next character after the blanks of a text that must not end here. -/
def peekValue : Reader Char := do
  match ← peek with
  | none => failNext .endInValue
  | some c => pure c

/-! ## Scalars -/

def string : Reader String := do
  if (← peekValue) = '\"' then do advance; stringBody
  else mismatch "a string"

def bool : Reader Bool := do
  let c ← peekValue
  if c = 't' then do advance; word ['r', 'u', 'e']; pure true
  else if c = 'f' then do advance; word ['a', 'l', 's', 'e']; pure false
  else mismatch "a boolean"

/-- An integer from `low` to `high`. -/
def integer (low high : Int) (wanted : String) : Reader Int := do
  let c ← peekValue
  let number ← if c = '-' then do advance; numberBody true
    else if c.isDigit then numberBody false
    else mismatch wanted
  match number with
  | .float _ => failHere (.invalidType number.found wanted)
  | .integer n =>
    if low ≤ n ∧ n ≤ high then pure n else failHere (.invalidValue (.integer n) wanted)

/-- `null`, or a value. -/
def optional {α : Type} (reader : Reader α) : Reader (Option α) := do
  if (← peek) = some 'n' then do advance; word ['u', 'l', 'l']; pure none
  else some <$> reader

/-! ## Brackets -/

/-- The end of a list. The characters after it are given also on failure. -/
def closeList (rest : List Char) : Option Failure × List Char :=
  match rest.dropWhile isBlank with
  | [] => (some (.placed .endInList 0), [])
  | ']' :: rest => (none, rest)
  | ',' :: rest =>
    let rest := rest.dropWhile isBlank
    let cause := if rest.head? = some ']' then .trailingComma else .trailingCharacters
    (some (.placed cause (byteLength rest - 1)), rest)
  | rest => (some (.placed .trailingCharacters (byteLength rest - 1)), rest)

/-- The end of an object. The characters after it are given also on failure. -/
def closeObject (rest : List Char) : Option Failure × List Char :=
  match rest.dropWhile isBlank with
  | [] => (some (.placed .endInObject 0), [])
  | '\x7d' :: rest => (none, rest)
  | ',' :: rest => (some (.placed .trailingComma (byteLength (',' :: rest) - 1)), ',' :: rest)
  | rest => (some (.placed .trailingCharacters (byteLength rest - 1)), rest)

/-- Reads what stands between brackets and the closing one. A fault without place is reported where
the closing bracket was looked for. -/
def within {α : Type} (close : List Char → Option Failure × List Char) (body : Reader α) :
    Reader α := fun rest =>
  match body rest with
  | .ok (value, rest) =>
    match close rest with
    | (none, rest) => .ok (value, rest)
    | (some failure, _) => .error failure
  | .error (.unplaced cause rest) => .error (.placed cause (byteLength (close rest).2))
  | .error failure => .error failure

/-- Opens a bracket, if that is still allowed. -/
def openBracket (depth : Nat) : Reader Unit :=
  if depth = 0 then failNext .nestedTooDeep else advance

/-- Is there another element? `first` holds before the first one. -/
def hasElement (first : Bool) : Reader Bool := do
  match ← peek with
  | none => failNext .endInList
  | some c =>
    if c = ']' then pure false
    else if first then pure true
    else if c = ',' then do
      advance
      match ← peek with
      | none => failNext .endInValue
      | some c => if c = ']' then failNext .trailingComma else pure true
    else failNext .expectedCommaOrBracket

/-- Every element but the last is followed by a comma, so the length of the text bounds the
steps. -/
def elements {α : Type} (item : Reader α) (first : Bool) : Nat → Reader (List α)
  | 0 => pure []
  | steps + 1 => do
    if ← hasElement first then do
      let value ← item
      return value :: (← elements item false steps)
    else pure []

/-- A list; its items are read with one bracket less to open. -/
def list {α : Type} (depth : Nat) (item : Reader α) : Reader (List α) := do
  if (← peekValue) = '[' then do
    openBracket depth
    within closeList (do elements item true ((← get).length + 1))
  else mismatch "a sequence"

/-! ## Records -/

/-- A field of a record that is being read: `σ` holds the fields read so far. -/
structure Field (σ : Type) where
  name : String
  isRequired : Bool
  isRead : σ → Bool
  read : σ → Reader σ

/-- A record under its name in messages: its fields in order, and the value they make. -/
structure Record (σ α : Type) where
  wanted : String
  fields : List (Field σ)
  start : σ
  finish : σ → Except Cause α

def Record.wantedLength {σ α : Type} (record : Record σ α) : String :=
  record.wanted ++ " with " ++ Nat.repr record.fields.length ++
    (if record.fields.length = 1 then " element" else " elements")

/-- The value of a field that every record has. -/
def require {α : Type} (name : String) : Option α → Except Cause α
  | some value => .ok value
  | none => .error (.missingField name)

def finishRecord {σ α : Type} (record : Record σ α) (state : σ) : Reader α :=
  match record.finish state with
  | .ok value => pure value
  | .error cause => failLater cause

/-- The fields in order, as a list. Optional ones may be left off at the end. -/
def fieldsInOrder {σ : Type} (wantedLength : String) (first : Bool) (index : Nat) :
    List (Field σ) → σ → Reader σ
  | [], state => pure state
  | field :: more, state => do
    if ← hasElement first then do
      let state ← field.read state
      fieldsInOrder wantedLength false (index + 1) more state
    else if field.isRequired then failLater (.invalidLength index wantedLength)
    else fieldsInOrder wantedLength first (index + 1) more state

/-- The name of the next member of an object, if there is one. -/
def memberName (first : Bool) : Reader (Option String) := do
  match ← peek with
  | none => failNext .endInObject
  | some c =>
    if c = '\x7d' then pure none
    else if first then
      if c = '\"' then do advance; some <$> stringBody else failNext .keyNotString
    else if c = ',' then do
      advance
      match ← peek with
      | none => failNext .endInValue
      | some c =>
        if c = '\"' then do advance; some <$> stringBody
        else if c = '\x7d' then failNext .trailingComma
        else failNext .keyNotString
    else failNext .expectedCommaOrBrace

def colon : Reader Unit := do
  match ← peek with
  | none => failNext .endInObject
  | some c => if c = ':' then advance else failNext .expectedColon

/-- The members of an object in any order. Members of unknown name are read over. -/
def members {σ : Type} (fields : List (Field σ)) (first : Bool) : Nat → σ → Reader σ
  | 0, state => pure state
  | steps + 1, state => do
    match ← memberName first with
    | none => pure state
    | some name =>
      match fields.find? (·.name = name) with
      | some field =>
        if field.isRead state then failLater (.duplicateField name)
        else do
          colon
          let state ← field.read state
          members fields false steps state
      | none => do
        colon
        skipValue
        members fields false steps state

/-- A record; its fields are read with one bracket less to open. -/
def record {σ α : Type} (depth : Nat) (shape : Record σ α) : Reader α := do
  let c ← peekValue
  if c = '[' then do
    openBracket depth
    within closeList (do
      let state ← fieldsInOrder shape.wantedLength true 0 shape.fields shape.start
      finishRecord shape state)
  else if c = '\x7b' then do
    openBracket depth
    within closeObject (do
      let state ← members shape.fields true ((← get).length + 1) shape.start
      finishRecord shape state)
  else mismatch shape.wanted

/-! ## Choices -/

/-- What a name of a choice stands for: a value alone, or one that is read after the name. -/
inductive Payload (α : Type) where
  | unit (value : α)
  | value (reader : Reader α)
  | fields (reader : Reader α)

/-- The name of a choice, at its opening quotation mark. -/
def choiceName {α : Type} (choices : List (String × Payload α)) : Reader (Payload α) := do
  advance
  let name ← stringBody
  match choices.find? (·.1 = name) with
  | some choice => pure choice.2
  | none => failHere (.unknownVariant name (choices.map (·.1)))

/-- The name of a choice as the first member name of an object. -/
def choiceKey {α : Type} (choices : List (String × Payload α)) : Reader (Payload α) := do
  match ← peek with
  | none => failNext .endInObject
  | some c =>
    if c = '\"' then choiceName choices
    else if c = '\x7d' then failNext .expectedValue
    else failNext .keyNotString

def null : Reader Unit := do
  if (← peekValue) = 'n' then do advance; word ['u', 'l', 'l'] else mismatch "unit"

/-- A choice: an object with one member, or a name. -/
def choice {α : Type} (depth : Nat) (choices : List (String × Payload α)) : Reader α := do
  match ← peek with
  | none => failNext .endInValue
  | some c =>
    if c = '\x7b' then do
      openBracket depth
      let payload ← choiceKey choices
      colon
      let value ← match payload with
        | .unit value => do null; pure value
        | .value reader | .fields reader => reader
      match ← peek with
      | none => failHere .endInObject
      | some c => if c = '\x7d' then do advance; pure value else failHere .expectedValue
    else if c = '\"' then do
      match ← choiceName choices with
      | .unit value => pure value
      | .value _ => failLater (.invalidType .unitVariant "newtype variant")
      | .fields _ => failLater (.invalidType .unitVariant "struct variant")
    else failNext .expectedValue

end Reader

/-- Reads a whole text. -/
def parse {α : Type} (reader : Reader α) (text : String) : Except Fault α :=
  let chars := text.toList
  match reader chars with
  | .error (.placed cause left) => .error (Fault.place chars cause left)
  | .error (.unplaced cause rest) => .error (Fault.place chars cause (byteLength rest))
  | .ok (value, rest) =>
    match rest.dropWhile Reader.isBlank with
    | [] => .ok value
    | rest => .error (Fault.place chars .trailingCharacters (byteLength rest - 1))

end PlusCalGo.Json
