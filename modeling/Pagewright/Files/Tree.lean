import Pagewright.Files.Path
import Pagewright.Os
import Pagewright.Text.Encoding
import Pagewright.Text.Order

namespace Pagewright

instance bytesDecidableEq : DecidableEq ByteArray :=
  fun a b => decidable_of_iff (a.data = b.data) ByteArray.ext_iff.symm

inductive Node where
  | file (content : ByteArray)
  | directory
  deriving DecidableEq

abbrev Location := List Text

/-- A tree of files. The place of an entry is given from the top directory, where relative paths
start. -/
structure FileTree where
  /-- Where the top directory itself stands. -/
  home : Location
  entries : List (Location × Node)

namespace FileTree

def empty (home : Location) : FileTree :=
  ⟨home, []⟩

def homePath (tree : FileTree) : Text :=
  if tree.home.isEmpty then ['/'] else tree.home.flatMap ('/' :: ·)

def find? (tree : FileTree) (inner : Location) : Option Node :=
  tree.entries.lookup inner

/-- What stands at a place. Around the top directory there are only the directories that hold
it. -/
def node? (tree : FileTree) (place : Location) : Option Node :=
  if place.isPrefixOf tree.home then some .directory
  else (tree.home.isPrefixOf? place).bind tree.find?

def follow (tree : FileTree) (place : Location) (name : Text) : Except OsFault Location :=
  match tree.node? place with
  | none => .error .notFound
  | some (.file _) => .error .notADirectory
  | some .directory =>
    if name.isEmpty || name = ['.'] then .ok place
    else if name = ['.', '.'] then .ok place.dropLast
    else .ok (place ++ [name])

def locate (tree : FileTree) (path : Text) : Except OsFault Location :=
  if path.isEmpty then .error .notFound
  else (Path.names path).foldlM tree.follow (if Path.isAbsolute path then [] else tree.home)

def nodeAt (tree : FileTree) (path : Text) : Except OsFault Node := do
  match tree.node? (← tree.locate path) with
  | some node => .ok node
  | none => .error .notFound

def exists? (tree : FileTree) (path : Text) : Bool :=
  (tree.nodeAt path).isOk

def isDirectory (tree : FileTree) (path : Text) : Bool :=
  match tree.nodeAt path with
  | .ok .directory => true
  | _ => false

def read (tree : FileTree) (path : Text) : Except OsFault ByteArray := do
  match ← tree.nodeAt path with
  | .file content => .ok content
  | .directory => .error .isADirectory

def readText (tree : FileTree) (path : Text) : Except OsFault Text := do
  match Text.decode? (← tree.read path) with
  | some t => .ok t
  | none => .error .notText

def setEntry (inner : Location) (node : Node) :
    List (Location × Node) → List (Location × Node)
  | [] => [(inner, node)]
  | (l, n) :: es => if l = inner then (l, node) :: es else (l, n) :: setEntry inner node es

def set (tree : FileTree) (inner : Location) (node : Node) : FileTree :=
  { tree with entries := setEntry inner node tree.entries }

def without (tree : FileTree) (inner : Location) : FileTree :=
  { tree with entries := tree.entries.filter fun e => !inner.isPrefixOf e.1 }

/-- A place that may be changed, from the top directory. The top directory itself and what is
outside it are left alone. -/
def inside (tree : FileTree) (place : Location) : Except OsFault Location :=
  match tree.home.isPrefixOf? place with
  | some (name :: rest) => .ok (name :: rest)
  | _ => .error .denied

def write (tree : FileTree) (path : Text) (content : ByteArray) : Except OsFault FileTree := do
  if path.getLast? = some '/' then
    let _ ← tree.locate (Path.trimBackward path.reverse).reverse
    throw .isADirectory
  let place ← tree.locate path
  match tree.node? place with
  | some .directory => throw .isADirectory
  | _ => return tree.set (← tree.inside place) (.file content)

def makeDir (tree : FileTree) (path : Text) : Except OsFault FileTree := do
  let place ← tree.locate (Path.trimBackward path.reverse).reverse
  match tree.node? place with
  | some _ => throw .alreadyExists
  | none => return tree.set (← tree.inside place) .directory

def removeAll (tree : FileTree) (path : Text) : Except OsFault FileTree := do
  match ← tree.nodeAt path with
  | .file _ => throw .notADirectory
  | .directory => return tree.without (← tree.inside (← tree.locate path))

/-- Makes the first of some nested directories, and before it those around it that are missing.
The tree is given back also after a fault, since outer directories may have been made by then. -/
def makeNested (tree : FileTree) : List Text → Except OsFault Unit × FileTree
  | [] => (.ok (), tree)
  | path :: around =>
    match tree.makeDir path with
    | .ok tree => (.ok (), tree)
    | .error .notFound =>
      match tree.makeNested around with
      | (.error fault, tree) => (.error fault, tree)
      | (.ok (), tree) =>
        match tree.makeDir path with
        | .ok tree => (.ok (), tree)
        | .error fault => (if tree.isDirectory path then .ok () else .error fault, tree)
    | .error fault => (if tree.isDirectory path then .ok () else .error fault, tree)

def makeDirs (tree : FileTree) (path : Text) : Except OsFault Unit × FileTree :=
  tree.makeNested (Path.ancestors path)

def children (tree : FileTree) (inner : Location) : List Text :=
  Text.sortedSet (tree.entries.filterMap fun e =>
    match inner.isPrefixOf? e.1 with
    | some [name] => some name
    | _ => none)

/-- A place from the top directory as a path; a directory ends with a slash. -/
def display (e : Location × Node) : Text :=
  let path := Text.join ['/'] e.1
  match e.2 with
  | .file _ => path
  | .directory => path ++ ['/']

def sorted (entries : List (Location × Node)) : List (Location × Node) :=
  entries.mergeSort fun a b => !Text.before (display b) (display a)

def changedSince (tree earlier : FileTree) : List (Location × Node) :=
  sorted (tree.entries.filter fun e => earlier.find? e.1 ≠ some e.2)

/-- The entries of an earlier tree that are gone; a directory is gone also when a file has
taken its place. -/
def removedSince (tree earlier : FileTree) : List (Location × Node) :=
  sorted (earlier.entries.filter fun e => tree.entries.all fun f => display f ≠ display e)

end FileTree
end Pagewright
