import Pagewright.Host.Process
import Pagewright.Number.Bounded
import Pagewright.Text.Blank

namespace Pagewright

abbrev Utility := List Text → Process → Process

namespace Utility

def quoted (name : Text) : Text :=
  if name.contains '\'' then ['"'] ++ name ++ ['"'] else ['\''] ++ name ++ ['\'']

def isPlain (c : Char) : Bool :=
  c.isAlphanum || "%+,-./:=@_^".toList.contains c

def shown (name : Text) : Text :=
  if name.isEmpty || !name.all isPlain then quoted name else name

def about (what name : Text) (fault : OsFault) : Text :=
  what ++ name ++ ": ".toList ++ fault.phrase

def misuse (p : Process) (complaint : Text) (status : Nat := 1) : Process :=
  ((p.complain complaint).complainLine
    ("Try '".toList ++ p.name ++ " --help' for more information.".toList)).exit status

/-- Options, each a letter or a long name, and the operands. What follows `--` is an operand. -/
def options : List Text → List Text × List Text
  | [] => ([], [])
  | ['-', '-'] :: rest => ([], rest)
  | ('-' :: '-' :: name) :: rest =>
    let (flags, operands) := options rest
    (('-' :: '-' :: name) :: flags, operands)
  | ('-' :: c :: cs) :: rest =>
    let (flags, operands) := options rest
    ((c :: cs).map ([·]) ++ flags, operands)
  | arg :: rest =>
    let (flags, operands) := options rest
    (flags, arg :: operands)

def badOption : Text → Text
  | [c] => "invalid option -- ".toList ++ quoted [c]
  | name => "unrecognized option ".toList ++ quoted name

def withOptions (known : List Char) (status : Nat)
    (run : (Char → Bool) → List Text → Process → Process) : Utility :=
  fun args p =>
    let (flags, operands) := options args
    match flags.find? (!(known.map ([·])).contains ·) with
    | some flag => misuse p (badOption flag) status
    | none => run (fun c => flags.contains [c]) operands p

def source (p : Process) (name : Text) : Except OsFault ByteArray × Process :=
  if name = ['-'] then
    let (bytes, p) := p.drain
    (.ok bytes, p)
  else (p.tree.read (p.path name), p)

def cat : Utility :=
  withOptions ['u'] 1 fun _ names p =>
    (if names.isEmpty then [['-']] else names).foldl (fun p name =>
      match source p name with
      | (.ok bytes, p) => p.emit bytes
      | (.error fault, p) => p.fail (about [] (shown name) fault)) p

def openFile (append : Bool) (p : Process) (name : Text) : Except OsFault FileTree :=
  match append, p.tree.read (p.path name) with
  | true, .ok _ => .ok p.tree
  | _, _ => p.tree.write (p.path name) .empty

def appendTo (bytes : ByteArray) (p : Process) (name : Text) : Process :=
  match p.tree.read (p.path name) with
  | .error _ => p
  | .ok before =>
    match p.tree.write (p.path name) (before ++ bytes) with
    | .ok tree => { p with tree }
    | .error _ => p

def tee : Utility :=
  withOptions ['a', 'i'] 1 fun has names p =>
    let (opened, p) := names.foldl (fun (opened, p) name =>
      match openFile (has 'a') p name with
      | .ok tree => (opened ++ [name], { p with tree })
      | .error fault => (opened, p.fail (about [] (shown name) fault))) (([] : List Text), p)
    let (bytes, p) := p.drain
    opened.foldl (appendTo bytes) (p.emit bytes)

/-- Where a file goes: into the target, if that is a directory, under its own name. -/
def destination (p : Process) (name target : Text) : Text :=
  if p.tree.isDirectory (p.path target) then
    Path.join target ((Path.fileName? name).getD name)
  else target

def isSame (p : Process) (a b : Text) : Bool :=
  match p.tree.locate (p.path a), p.tree.locate (p.path b) with
  | .ok x, .ok y => x = y
  | _, _ => false

def copyEntries (tree : FileTree) (place target : Location) : FileTree :=
  tree.entries.foldl (fun copied e =>
    match place.isPrefixOf? e.1 with
    | some rest => copied.set (target ++ rest) e.2
    | none => copied) tree

def sameFile (name goal : Text) : Text :=
  quoted name ++ " and ".toList ++ quoted goal ++ " are the same file".toList

def copyTo (deep : Bool) (p : Process) (name target : Text) : Process :=
  let goal := destination p name target
  match p.tree.nodeAt (p.path name) with
  | .error fault => p.fail (about "cannot stat " (quoted name) fault)
  | .ok .directory =>
    if deep then
      p.change (fun tree => do
          let place ← tree.locate (p.path name)
          let goal ← tree.locate (p.path goal)
          return copyEntries tree (← tree.inside place) (← tree.inside goal))
        (about "cannot create directory " (quoted goal))
    else p.fail ("-r not specified; omitting directory ".toList ++ quoted name)
  | .ok (.file content) =>
    if isSame p goal name then p.fail (sameFile name goal)
    else p.change (·.write (p.path goal) content)
      (about "cannot create regular file " (quoted goal))

def moveTo (p : Process) (name target : Text) : Process :=
  let goal := destination p name target
  match p.tree.nodeAt (p.path name) with
  | .error fault => p.fail (about "cannot stat " (quoted name) fault)
  | .ok _ =>
    if isSame p goal name then p.fail (sameFile name goal)
    else
      p.change (fun tree => do
          let place ← tree.inside (← tree.locate (p.path name))
          let goal ← tree.inside (← tree.locate (p.path goal))
          return (copyEntries tree place goal).without place)
        (about ("cannot move ".toList ++ quoted name ++ " to ".toList) (quoted goal))

def toTarget (put : Process → Text → Text → Process) (operands : List Text) (p : Process) :
    Process :=
  match operands with
  | [] => misuse p "missing file operand"
  | [source] => misuse p ("missing destination file operand after ".toList ++ quoted source)
  | [source, target] => put p source target
  | _ =>
    let target := operands.getLast?.getD []
    if p.tree.isDirectory (p.path target) then
      operands.dropLast.foldl (fun p source => put p source target) p
    else
      let fault := match p.tree.nodeAt (p.path target) with
        | .ok _ => OsFault.notADirectory
        | .error fault => fault
      p.fail (about "target " (quoted target) fault)

def cp : Utility :=
  withOptions ['r', 'R', 'a', 'f', 'p'] 1 fun has operands p =>
    toTarget (copyTo (has 'r' || has 'R' || has 'a')) operands p

def mv : Utility :=
  withOptions ['f'] 1 fun _ operands p => toTarget moveTo operands p

def removeOne (deep quiet : Bool) (p : Process) (name : Text) : Process :=
  let complaint := about "cannot remove " (quoted name)
  match p.tree.nodeAt (p.path name) with
  | .error fault => if quiet && fault = .notFound then p else p.fail (complaint fault)
  | .ok .directory =>
    if deep then p.change (·.removeAll (p.path name)) complaint
    else p.fail (complaint .isADirectory)
  | .ok (.file _) =>
    p.change (fun tree => do
      return tree.without (← tree.inside (← tree.locate (p.path name)))) complaint

def rm : Utility :=
  withOptions ['r', 'R', 'f'] 1 fun has names p =>
    if names.isEmpty && !has 'f' then misuse p "missing operand"
    else names.foldl (removeOne (has 'r' || has 'R') (has 'f')) p

def makeOne (deep : Bool) (p : Process) (name : Text) : Process :=
  let complaint := about "cannot create directory " (quoted name)
  if deep then
    match p.tree.makeDirs (p.path name) with
    | (.ok (), tree) => { p with tree }
    | (.error fault, tree) => { p with tree }.fail (complaint fault)
  else p.change (·.makeDir (p.path name)) complaint

def mkdir : Utility :=
  withOptions ['p'] 1 fun has names p =>
    if names.isEmpty then misuse p "missing operand"
    else names.foldl (makeOne (has 'p')) p

def listed (all almostAll : Bool) (p : Process) (name : Text) : List Text :=
  match p.tree.locate (p.path name) with
  | .error _ => []
  | .ok place =>
    let names := p.tree.children ((p.tree.home.isPrefixOf? place).getD [])
    (if all then [['.'], ['.', '.']] else [])
      ++ names.filter fun name => all || almostAll || name.head? ≠ some '.'

def column (names : List Text) : Text :=
  names.flatMap (· ++ ['\n'])

def ls : Utility :=
  withOptions ['1', 'a', 'A'] 2 fun has names p =>
    let names := Text.sortedSet (if names.isEmpty then [['.']] else names)
    let p := names.foldl (fun p name =>
      match p.tree.nodeAt (p.path name) with
      | .error fault => (p.complain (about "cannot access " (quoted name) fault)).exit 2
      | .ok _ => p) p
    let files := names.filter fun name => (p.tree.read (p.path name)).isOk
    let directories := names.filter fun name => p.tree.isDirectory (p.path name)
    let titled (name : Text) : Text :=
      let lines := column (listed (has 'a') (has 'A') p name)
      if names.length = 1 then lines else name ++ ":\n".toList ++ lines
    let gap : Text := if files.isEmpty || directories.isEmpty then [] else ['\n']
    p.say (column files ++ gap ++ Text.join ['\n'] (directories.map titled))

def firstLines : Nat → List UInt8 → List UInt8
  | 0, _ => []
  | _, [] => []
  | n + 1, b :: bs => if b = 10 then b :: firstLines n bs else b :: firstLines (n + 1) bs

inductive Amount where
  | lines (n : Nat)
  | bytes (n : Nat)

def Amount.take (bytes : ByteArray) : Amount → ByteArray
  | .lines n => ⟨(firstLines n bytes.toList).toArray⟩
  | .bytes n => bytes.extract 0 n

structure Excerpt where
  amount : Amount
  names : List Text

def amount (unit : Char) (digits : Text) : Except Text Amount :=
  match Number.bounded (Nat.pow 2 64) digits, unit with
  | .ok n, 'c' => .ok (.bytes n)
  | .ok n, _ => .ok (.lines n)
  | .error _, 'c' => .error ("invalid number of bytes: ".toList ++ quoted digits)
  | .error _, _ => .error ("invalid number of lines: ".toList ++ quoted digits)

/-- Reads the options of `head`. The complaint says whether it is about the way of calling. -/
def excerpt : Amount → List Text → Except (Bool × Text) Excerpt
  | a, [] => .ok ⟨a, []⟩
  | _, [['-', 'c']] => .error (true, "option requires an argument -- 'c'")
  | _, [['-', 'n']] => .error (true, "option requires an argument -- 'n'")
  | _, ['-', 'c'] :: digits :: rest => do excerpt (← (amount 'c' digits).mapError (false, ·)) rest
  | _, ['-', 'n'] :: digits :: rest => do excerpt (← (amount 'n' digits).mapError (false, ·)) rest
  | _, ('-' :: unit :: digits) :: rest =>
    if unit = 'c' || unit = 'n' then do
      excerpt (← (amount unit digits).mapError (false, ·)) rest
    else if unit.isDigit then do
      excerpt (← (amount 'n' (unit :: digits)).mapError (false, ·)) rest
    else .error (true, badOption (if unit = '-' then '-' :: unit :: digits else [unit]))
  | a, name :: rest => do
    let e ← excerpt a rest
    return { e with names := name :: e.names }

def head : Utility := fun args p =>
  match excerpt (.lines 10) args with
  | .error (true, complaint) => misuse p complaint
  | .error (false, complaint) => p.fail complaint
  | .ok ⟨amount, names⟩ =>
    (if names.isEmpty then [['-']] else names).foldl (fun p name =>
      match source p name with
      | (.ok bytes, p) => p.emit (amount.take bytes)
      | (.error .isADirectory, p) =>
        p.fail (about "error reading " (quoted name) .isADirectory)
      | (.error fault, p) =>
        p.fail (about "cannot open " (quoted name ++ " for reading".toList) fault)) p

def touch : Utility :=
  withOptions ['c'] 1 fun has names p =>
    if names.isEmpty then misuse p "missing file operand"
    else names.foldl (fun p name =>
      if p.tree.exists? (p.path name) || has 'c' then p
      else p.change (·.write (p.path name) .empty) (about "cannot touch " (quoted name))) p

def unit? : Text → Option Nat
  | [] => some 1000
  | ['s'] => some 1000
  | ['m'] => some 60000
  | ['h'] => some 3600000
  | ['d'] => some 86400000
  | _ => none

/-- The milliseconds that a decimal with a unit denotes, without what is below one. -/
def interval? (t : Text) : Option Nat := do
  let whole := t.takeWhile Char.isDigit
  let (places, rest) := match t.dropWhile Char.isDigit with
    | '.' :: rest => (rest.takeWhile Char.isDigit, rest.dropWhile Char.isDigit)
    | rest => ([], rest)
  guard !(whole.isEmpty && places.isEmpty)
  let n ← (Number.boundedFrom (Nat.pow 2 64) 0 (whole ++ places)).toOption
  return n * (← unit? rest) / Nat.pow 10 places.length

def sleep : Utility :=
  withOptions [] 1 fun _ times p =>
    if times.isEmpty then misuse p "missing operand"
    else match times.find? fun t => (interval? t).isNone with
      | some bad => misuse p ("invalid time interval ".toList ++ quoted bad)
      | none => p.sleep ((times.filterMap interval?).foldl (· + ·) 0)

def named? (name : Text) : Option Utility :=
  match String.ofList name with
  | "true" => some fun _ p => p
  | "false" => some fun _ p => p.exit 1
  | "cat" => some cat
  | "tee" => some tee
  | "cp" => some cp
  | "mv" => some mv
  | "rm" => some rm
  | "mkdir" => some mkdir
  | "ls" => some ls
  | "head" => some head
  | "touch" => some touch
  | "sleep" => some sleep
  | _ => none

end Utility
end Pagewright
