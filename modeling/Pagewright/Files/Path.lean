import Pagewright.Text.Basic

namespace Pagewright.Path

def isAbsolute (path : Text) : Bool :=
  path.head? = some '/'

/-- A path taken from a directory. An absolute path stays what it is. Nothing is simplified, so that
messages show what was given. -/
def join (directory path : Text) : Text :=
  if isAbsolute path then path
  else if directory.isEmpty || directory.getLast? = some '/' then directory ++ path
  else directory ++ '/' :: path

/-- A path, written backwards, without the slashes and the `/.` that end it. -/
def trimBackward : Text → Text
  | '/' :: rest => if rest.isEmpty then ['/'] else trimBackward rest
  | '.' :: '/' :: rest => if rest.isEmpty then ['/'] else trimBackward rest
  | path => path

/-- The path of the directory that holds the last name of a path; a single name is held by the
empty path. -/
def parent? (path : Text) : Option Text :=
  match trimBackward path.reverse with
  | [] => none
  | ['/'] => none
  | last => some (trimBackward (last.dropWhile (· ≠ '/'))).reverse

def fileName? (path : Text) : Option Text :=
  let name := ((trimBackward path.reverse).takeWhile (· ≠ '/')).reverse
  if name.isEmpty || name = ['.'] || name = ['.', '.'] then none else some name

/-- A path and the paths of the directories around it, up to the empty path or the root, at
most `fuel` of them. -/
def ancestorsUpTo : Nat → Text → List Text
  | 0, _ => []
  | fuel + 1, path =>
    if path.isEmpty then []
    else match parent? path with
      | none => [path]
      | some up => path :: ancestorsUpTo fuel up

/-- A path and the paths of the directories around it, innermost first. Each is shorter than
the one before it. -/
def ancestors (path : Text) : List Text :=
  ancestorsUpTo path.length path

/-- The names of a path. An empty name comes from a slash at an end or from two in a row. -/
def names (path : Text) : List Text :=
  Text.pieces '/' path

end Pagewright.Path
