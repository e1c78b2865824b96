/-!
# Go code

The statements of a Go function body as a tree. Code may hold `section` leaves that stand for
statements somebody else fills in; code without them is rendered line by line. A label that nothing
jumps to is no Go, so only labels that are jump targets are rendered.
-/

namespace PlusCalGo.Go

/-- Statements with leaves of type `κ` that are not written out yet. -/
inductive Code (κ : Type) where
  /-- A line of Go as it stands. -/
  | line (text : String)
  | label (name : String)
  | goto (name : String)
  | branch (condition : String) (yes no : List (Code κ))
  /-- A `for` without condition. -/
  | loop (body : List (Code κ))
  | switch (subject : String) (cases : List (List (Code κ)))
  | block (body : List (Code κ))
  | leaf (content : κ)
deriving Inhabited

/-- Code that is written out. -/
abbrev PlainCode := Code Empty

namespace Code

variable {κ ι : Type}

mutual

/-- Writes the leaves out. -/
def expand (write : κ → List (Code ι)) : Code κ → List (Code ι)
  | line text => [line text]
  | label name => [label name]
  | goto name => [goto name]
  | branch condition yes no => [branch condition (listExpand write yes) (listExpand write no)]
  | loop body => [loop (listExpand write body)]
  | switch subject cases => [switch subject (casesExpand write cases)]
  | block body => [block (listExpand write body)]
  | leaf content => write content

def listExpand (write : κ → List (Code ι)) : List (Code κ) → List (Code ι)
  | [] => []
  | code :: rest => code.expand write ++ listExpand write rest

def casesExpand (write : κ → List (Code ι)) : List (List (Code κ)) → List (List (Code ι))
  | [] => []
  | body :: rest => listExpand write body :: casesExpand write rest

end

end Code

/-! ## Rendering -/

/-- A rendered line. A label at the end of its block stands `alone`, before an empty statement. -/
inductive CodeLine where
  | text (indent : Nat) (content : String)
  | label (name : String) (alone : Bool)
  | goto (indent : Nat) (name : String)
deriving DecidableEq

/-- The characters of a line and its end. Labels are not indented. -/
def CodeLine.render : CodeLine → String
  | text indent content => String.ofList (List.replicate indent '\t') ++ content ++ "\n"
  | label name alone => name ++ (if alone then ": \x7b\x7d\n" else ":\n")
  | goto indent name => String.ofList (List.replicate indent '\t') ++ "goto " ++ name ++ "\n"

namespace Code

mutual

/-- The lines of a statement; `isLast` holds at the end of a block. -/
def lines (targets : List String) (indent : Nat) (isLast : Bool) : PlainCode → List CodeLine
  | line text => [.text indent text]
  | label name => if name ∈ targets then [.label name isLast] else []
  | goto name => [.goto indent name]
  | branch condition yes no =>
    [.text indent ("if " ++ condition ++ " \x7b")] ++ listLines targets (indent + 1) yes ++
      (if no.isEmpty then []
        else [.text indent "\x7d else \x7b"] ++ listLines targets (indent + 1) no) ++
      [.text indent "\x7d"]
  | loop body =>
    [.text indent "for \x7b"] ++ listLines targets (indent + 1) body ++ [.text indent "\x7d"]
  | switch subject cases =>
    [.text indent ("switch " ++ subject ++ " \x7b")] ++ casesLines targets indent 0 cases ++
      [.text indent "\x7d"]
  | block body =>
    [.text indent "\x7b"] ++ listLines targets (indent + 1) body ++ [.text indent "\x7d"]
  | leaf content => nomatch content

def listLines (targets : List String) (indent : Nat) : List PlainCode → List CodeLine
  | [] => []
  | code :: rest => code.lines targets indent rest.isEmpty ++ listLines targets indent rest

def casesLines (targets : List String) (indent : Nat) (index : Nat) :
    List (List PlainCode) → List CodeLine
  | [] => []
  | body :: rest =>
    [.text indent ("case " ++ Nat.repr index ++ ":")] ++ listLines targets (indent + 1) body ++
      casesLines targets indent (index + 1) rest

end

end Code

/-- The finished body of a function: its statements and the names something jumps to. -/
structure FunctionBody (κ : Type) where
  code : List (Code κ)
  targets : List String

namespace FunctionBody

def expand {κ ι : Type} (body : FunctionBody κ) (write : κ → List (Code ι)) : FunctionBody ι :=
  ⟨Code.listExpand write body.code, body.targets⟩

def lines (body : FunctionBody Empty) (indent : Nat) : List CodeLine :=
  Code.listLines body.targets indent body.code

def render (body : FunctionBody Empty) (indent : Nat) : String :=
  String.join ((body.lines indent).map CodeLine.render)

end FunctionBody

end PlusCalGo.Go
