/-!
# Paths

Paths as texts of pieces between slashes. A slash or a single dot at the start counts; other empty
pieces and single dots count for nothing, but the text keeps them.
-/

namespace PlusCalGo

structure Path where
  text : String
deriving DecidableEq, Inhabited

namespace Path

def empty : Path := ⟨""⟩

abbrev Piece := List Char

/-- What a path starts from. -/
inductive Lead where
  | root
  | here
  | relative
deriving DecidableEq

/-- The pieces between slashes, at least one. -/
def splitSlash : List Char → List Piece
  | [] => [[]]
  | c :: rest =>
    if c = '/' then [] :: splitSlash rest
    else match splitSlash rest with
      | [] => [[c]]
      | piece :: pieces => (c :: piece) :: pieces

def joinSlash : List Piece → List Char
  | [] => []
  | [piece] => piece
  | piece :: pieces => piece ++ '/' :: joinSlash pieces

def isBlankPiece (piece : Piece) : Bool := piece = [] || piece = ['.']

def parts (path : Path) : Lead × List Piece :=
  match splitSlash path.text.toList with
  | [] :: first :: rest => (.root, first :: rest)
  | ['.'] :: rest => (.here, rest)
  | pieces => (.relative, pieces)

def ofParts (lead : Lead) (body : List Piece) : Path :=
  match lead with
  | .root => ⟨String.ofList ('/' :: joinSlash body)⟩
  | .here => ⟨String.ofList (joinSlash (['.'] :: body))⟩
  | .relative => ⟨String.ofList (joinSlash body)⟩

/-- Drops pieces without meaning from the end. -/
def trimEnd (body : List Piece) : List Piece :=
  (body.reverse.dropWhile isBlankPiece).reverse

def isAbsolute (path : Path) : Bool := path.parts.1 = .root

/-- The pieces that count after the start. -/
def components (path : Path) : List Piece := path.parts.2.filter fun piece => !isBlankPiece piece

/-- The last component, unless it is two dots. -/
def fileName? (path : Path) : Option Piece :=
  match path.components.getLast? with
  | some name => if name = ['.', '.'] then none else some name
  | none => none

/-- The path without its last component. The root and the empty path have no parent. -/
def parent? (path : Path) : Option Path :=
  let (lead, body) := path.parts
  match (trimEnd body).reverse with
  | _ :: back => some (ofParts lead (trimEnd back.reverse))
  | [] => if lead = .here then some ⟨""⟩ else none

def parent (path : Path) : Path := path.parent?.getD ⟨""⟩

/-- A file name in front of its last dot and after it. A dot at the start splits nothing off. -/
def splitExtension (name : Piece) : Piece × Option Piece :=
  let back := name.reverse
  let extension := (back.takeWhile (· ≠ '.')).reverse
  match back.dropWhile (· ≠ '.') with
  | _ :: first :: stem => ((first :: stem).reverse, some extension)
  | _ => (name, none)

def extension? (path : Path) : Option Piece :=
  path.fileName?.bind fun name => (splitExtension name).2

/-- Puts another extension in place of the one the file name has. A name such as `..x` is left as
two dots, which are no file name any more. -/
def withExtension (path : Path) (extension : String) : Path :=
  let (lead, body) := path.parts
  match path.fileName?, (trimEnd body).reverse with
  | some name, _ :: back =>
    let (stem, old?) := splitExtension name
    let isLast := (trimEnd body).length = body.length
    let name := if stem = ['.'] && old?.isSome && isLast then ['.', '.']
      else stem ++ '.' :: extension.toList
    ofParts lead (back.reverse ++ [name])
  | _, _ => path

/-- The second path as seen from the first one. -/
def join (base path : Path) : Path :=
  if path.isAbsolute then path
  else if base.text.isEmpty || base.text.toList.getLast? = some '/' then ⟨base.text ++ path.text⟩
  else ⟨base.text ++ "/" ++ path.text⟩

/-- A path and all paths it is below of, the nearest first; `count` bounds their number. -/
def ancestorsUpTo : Nat → Path → List Path
  | 0, path => [path]
  | count + 1, path =>
    match path.parent? with
    | none => [path]
    | some parent => path :: ancestorsUpTo count parent

def ancestors (path : Path) : List Path := path.ancestorsUpTo (path.text.length + 1)

/-- Drops the mark in front of a path that is to be taken as it stands. -/
def withoutMark (path : Path) : Path :=
  match path.text.toList with
  | '\\' :: '\\' :: '?' :: '\\' :: rest => ⟨String.ofList rest⟩
  | _ => path

/-- The pieces after those that the components of another path match. -/
def dropComponents : List Piece → List Piece → Option (List Piece)
  | [], body => some body
  | _ :: _, [] => none
  | component :: rest, piece :: body =>
    if isBlankPiece piece then dropComponents (component :: rest) body
    else if piece = component then dropComponents rest body
    else none

/-- The path as seen from a directory it is in, or itself. -/
def relativeTo (path directory : Path) : Path :=
  let (lead, body) := path.parts
  if lead ≠ directory.parts.1 then path
  else match dropComponents directory.components body with
    | none => path
    | some body => ofParts .relative (trimEnd (body.dropWhile isBlankPiece))

end Path

end PlusCalGo
