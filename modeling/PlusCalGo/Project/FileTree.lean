import PlusCalGo.Project.Host
import PlusCalGo.Text.Utf8

/-!
# File trees

A host in memory: the files below a working directory, and the text printed so far. Nothing is known
of what is outside of the directory. Directories around it are there and take anything that is
written, but no file is found in them.
-/

namespace PlusCalGo

inductive FileNode where
  | directory
  | file (text : String)
  /-- A file that holds no text. -/
  | binary
deriving DecidableEq

abbrev FileName := List Char

/-- The directories and files of a tree under the names that lead to them. The working directory
itself is there without an entry. -/
structure FileTree where
  entries : List (List FileName × FileNode)

namespace FileTree

def empty : FileTree := ⟨[]⟩

/-- Where a path leads: below the working directory, to a directory around it, or to something in
one of those. -/
inductive Place where
  | inside (names : List FileName)
  | above
  | beyond
deriving DecidableEq

def nodeAt? (tree : FileTree) : Place → Option FileNode
  | .inside [] | .above => some .directory
  | .inside names => (tree.entries.find? (·.1 = names)).map (·.2)
  | .beyond => none

/-- Names longer than 255 bytes, and paths from 4096 bytes on, are refused. -/
def isLongName (name : FileName) : Bool := 255 < Text.byteLength name

def checkPath (path : Path) : Except FileFailure Unit :=
  if path.text.toList.contains '\x00' then .error .invalidName
  else if path.text.isEmpty then .error .notFound
  else if 4096 ≤ Text.byteLength path.text.toList then .error .nameTooLong
  else .ok ()

/-- Goes on from a place, which must be a directory. What is beyond counts as one for writing. -/
def step (tree : FileTree) (writing : Bool) (place : Place) (piece : FileName) :
    Except FileFailure Place :=
  match tree.nodeAt? place with
  | some .directory =>
    if piece = [] ∨ piece = ['.'] then .ok place
    else if piece = ['.', '.'] then
      match place with
      | .inside (name :: names) => .ok (.inside (name :: names).dropLast)
      | _ => .ok .above
    else if isLongName piece then .error .nameTooLong
    else match place with
      | .inside names => .ok (.inside (names ++ [piece]))
      | _ => .ok .beyond
  | some _ => .error .notDirectory
  | none => if place = .beyond ∧ writing then .ok .beyond else .error .notFound

def walk (tree : FileTree) (writing : Bool) (place : Place) :
    List FileName → Except FileFailure Place
  | [] => .ok place
  | piece :: rest => do walk tree writing (← tree.step writing place piece) rest

def startOf (path : Path) : Place := if path.isAbsolute then .above else .inside []

/-- What a path leads to. -/
def lookup (tree : FileTree) (path : Path) : Except FileFailure FileNode := do
  checkPath path
  let place ← tree.walk false (startOf path) (Path.splitSlash path.text.toList)
  match tree.nodeAt? place with
  | some node => pure node
  | none => throw .notFound

def isDirectory (tree : FileTree) (path : Path) : Bool :=
  match tree.lookup path with
  | .ok node => node = .directory
  | .error _ => false

def isPresent (tree : FileTree) (path : Path) : Bool := (tree.lookup path).toOption.isSome

def readFile (tree : FileTree) (path : Path) : Except FileFailure String := do
  match ← tree.lookup path with
  | .directory => throw .isDirectory
  | .file text => pure text
  | .binary => throw .notUtf8

/-- Puts a node in the place of the one that may be there. -/
def insert (tree : FileTree) (names : List FileName) (node : FileNode) : FileTree :=
  if (tree.entries.find? (·.1 = names)).isSome then
    ⟨tree.entries.map fun entry => if entry.1 = names then (names, node) else entry⟩
  else ⟨tree.entries ++ [(names, node)]⟩

/-- The directory of the last piece. -/
def directoryOf (tree : FileTree) (path : Path) (pieces : List FileName) :
    Except FileFailure Place := do
  tree.step true (← tree.walk true (startOf path) pieces.dropLast) ['.']

/-- The last piece, unless there is none or it is made of dots. Then it names a directory that is
there. -/
def newName? (pieces : List FileName) : Option FileName :=
  pieces.getLast?.filter fun name => name ≠ [] && name ≠ ['.'] && name ≠ ['.', '.']

/-- Makes a directory. Slashes may stand after its name. -/
def createDirectory (tree : FileTree) (path : Path) : Except FileFailure FileTree := do
  checkPath path
  let pieces := Path.splitSlash path.text.toList
  let named := (pieces.reverse.dropWhile (·.isEmpty)).reverse
  let directory ← tree.directoryOf path named
  match newName? named with
  | none => throw .alreadyExists
  | some name =>
    match ← tree.step true directory name with
    | .inside names =>
      if (tree.nodeAt? (.inside names)).isSome then throw .alreadyExists
      pure (tree.insert names .directory)
    | _ => pure tree

/-- Writes a file. A name with a slash after it is none of a file, however long it is. -/
def writeFile (tree : FileTree) (path : Path) (text : String) : Except FileFailure FileTree := do
  checkPath path
  let pieces := Path.splitSlash path.text.toList
  let named := (pieces.reverse.dropWhile (·.isEmpty)).reverse
  let directory ← tree.directoryOf path named
  match newName? named with
  | none => throw .isDirectory
  | some name => do
    if named.length ≠ pieces.length then throw .isDirectory
    let place ← tree.step true directory name
    if tree.nodeAt? place = some .directory then throw .isDirectory
    match place with
    | .inside names => pure (tree.insert names (.file text))
    | _ => pure tree

/-- Puts a file or directory into the tree, with the directories it is in. -/
def place (tree : FileTree) (path : Path) (node : FileNode) : FileTree :=
  let names := path.components
  let parents := (List.range names.length).tail.map fun count => names.take count
  (parents.foldl (fun tree names => tree.insert names .directory) tree).insert names node

end FileTree

/-- A file tree that is worked on. Its clock stands still. -/
structure Workspace where
  tree : FileTree
  directory : Path
  printed : String

namespace Workspace

/-- A change that may fail, and then changes nothing. -/
private def change (edit : FileTree → Except FileFailure FileTree) :
    StateM Workspace (Except FileFailure Unit) := fun workspace =>
  match edit workspace.tree with
  | .ok tree => (.ok (), { workspace with tree := tree })
  | .error failure => (.error failure, workspace)

instance : Host (StateM Workspace) where
  isDirectory path := do pure ((← get).tree.isDirectory path)
  isPresent path := do pure ((← get).tree.isPresent path)
  readFile path := do pure ((← get).tree.readFile path)
  createDirectory path := change fun tree => tree.createDirectory path
  writeFile path text := change fun tree => tree.writeFile path text
  workingDirectory := do pure (.ok (← get).directory)
  print text := modify fun workspace => { workspace with printed := workspace.printed ++ text }
  clock := pure 0

end Workspace

end PlusCalGo
