import PlusCalGo.Go.Section
import PlusCalGo.Proofs.Names.Blocks

/-!
# Go code with its names

Code as a tree in which texts are split into words, so that names stand out: the identifiers of the
algorithm, and the names that the back end puts in. Read word by word it is the code without names.
-/

namespace PlusCalGo.Go

inductive Word where
  /-- Anything but a name of a variable. -/
  | text (text : String)
  /-- An identifier of the algorithm. -/
  | identifier (uid : Uid) (name : String)
  /-- A name that the back end puts in for what it was declared for. -/
  | own (name : String) (declared : Declared)
deriving DecidableEq

namespace Word

def spelling : Word → String
  | text string => string
  | identifier _ name | own name _ => name

def spell : List Word → String
  | [] => ""
  | word :: rest => word.spelling ++ spell rest

/-- Words in a row with commas between them. -/
def listed : List (List Word) → List Word
  | [] => []
  | [words] => words
  | words :: rest => words ++ text ", " :: listed rest

@[simp] theorem spell_nil : spell [] = "" := rfl

@[simp] theorem spell_cons (word : Word) (rest : List Word) :
    spell (word :: rest) = word.spelling ++ spell rest := rfl

@[simp] theorem spell_append (first second : List Word) :
    spell (first ++ second) = spell first ++ spell second := by
  induction first with
  | nil => simp
  | cons word rest ih => simp [ih, String.append_assoc]

@[simp] theorem spelling_text (string : String) : (text string).spelling = string := rfl

@[simp] theorem spelling_identifier (uid : Uid) (name : String) :
    (identifier uid name).spelling = name := rfl

@[simp] theorem spelling_own (name : String) (declared : Declared) :
    (own name declared).spelling = name := rfl

theorem spell_listed (texts : List (List Word)) :
    spell (listed texts) = ", ".intercalate (texts.map spell) := by
  induction texts using listed.induct with
  | case1 => rfl
  | case2 words => simp [listed]
  | case3 words rest hrest ih =>
    rw [listed.eq_3 words rest hrest, List.map_cons, String.intercalate_cons_of_ne_nil]
    · simp [ih, String.append_assoc]
    · simpa using hrest

end Word

/-- A condition, and what is declared ahead of it for it and its branches. -/
structure Condition where
  /-- What is read before anything is declared. -/
  before : List Word
  declares : Block
  words : List Word
deriving DecidableEq

/-- Go statements with names. -/
inductive NamedCode where
  | line (words : List Word)
  /-- A line that declares a name, from there to the end of its block. -/
  | declare (words : List Word) (name : String) (declared : Declared)
  | label (name : String)
  | goto (name : String)
  | branch (condition : Condition) (yes no : List NamedCode)
  | loop (body : List NamedCode)
  | switch (subject : String) (cases : List (List NamedCode))
  | block (body : List NamedCode)

namespace NamedCode

/-! ## Reading it -/

mutual

/-- The code without names. -/
def plain {κ : Type} : NamedCode → Code κ
  | line words | declare words _ _ => .line (Word.spell words)
  | label name => .label name
  | goto name => .goto name
  | branch condition yes no =>
    .branch (Word.spell (condition.before ++ condition.words)) (listPlain yes) (listPlain no)
  | loop body => .loop (listPlain body)
  | switch subject cases => .switch subject (casesPlain cases)
  | block body => .block (listPlain body)

def listPlain {κ : Type} : List NamedCode → List (Code κ)
  | [] => []
  | code :: rest => code.plain :: listPlain rest

def casesPlain {κ : Type} : List (List NamedCode) → List (List (Code κ))
  | [] => []
  | body :: rest => listPlain body :: casesPlain rest

end

theorem listPlain_append {κ : Type} (first second : List NamedCode) :
    (listPlain (first ++ second) : List (Code κ)) = listPlain first ++ listPlain second := by
  induction first with
  | nil => rfl
  | cons code rest ih => rw [List.cons_append, listPlain, ih, listPlain, List.cons_append]

theorem casesPlain_eq_map {κ : Type} (cases : List (List NamedCode)) :
    (casesPlain cases : List (List (Code κ))) = cases.map listPlain := by
  induction cases with
  | nil => rfl
  | cons body rest ih => rw [casesPlain, ih, List.map_cons]

/-! ## Names in their blocks -/

/-- The blocks behind a statement. -/
def after (blocks : Blocks) : NamedCode → Blocks
  | declare _ name declared =>
    match blocks with
    | [] => [[(name, declared)]]
    | inner :: outer => ((name, declared) :: inner) :: outer
  | _ => blocks

mutual

/-- The words of code, each with the blocks around it. -/
def uses (blocks : Blocks) : NamedCode → List (Word × Blocks)
  | line words | declare words _ _ => words.map (·, blocks)
  | label _ | goto _ => []
  | branch condition yes no =>
    let inner := condition.declares :: blocks
    condition.before.map (·, blocks) ++ (condition.words.map (·, inner) ++
      (listUses ([] :: inner) yes ++ listUses ([] :: inner) no))
  | loop body | block body => listUses ([] :: blocks) body
  | switch _ cases => casesUses blocks cases

def listUses (blocks : Blocks) : List NamedCode → List (Word × Blocks)
  | [] => []
  | code :: rest => code.uses blocks ++ listUses (code.after blocks) rest

def casesUses (blocks : Blocks) : List (List NamedCode) → List (Word × Blocks)
  | [] => []
  | body :: rest => listUses ([] :: blocks) body ++ casesUses blocks rest

end

/-- The blocks behind some statements. -/
def listAfter (blocks : Blocks) (code : List NamedCode) : Blocks := code.foldl after blocks

theorem listAfter_append (blocks : Blocks) (first second : List NamedCode) :
    listAfter blocks (first ++ second) = listAfter (listAfter blocks first) second :=
  List.foldl_append

theorem listUses_append (blocks : Blocks) (first second : List NamedCode) :
    listUses blocks (first ++ second) =
      listUses blocks first ++ listUses (listAfter blocks first) second := by
  induction first generalizing blocks with
  | nil => rfl
  | cons code rest ih =>
    rw [List.cons_append, listUses, ih, listUses, List.append_assoc]
    rfl

end NamedCode

end PlusCalGo.Go
