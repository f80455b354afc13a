import Pagewright.Host.Script
import Pagewright.Host.Utility

namespace Pagewright

/-- A shell between two commands. Commands run one after the other; those of a pipeline too, each on
the whole output of the one before it. -/
structure Shell where
  process : Process
  /-- The name of the script in complaints. -/
  name : Text
  args : List Text
  bound : List (Text × Text)
  /-- Whether the standard utilities can be found. -/
  hasUtilities : Bool
  /-- Whether the first command that fails ends the script. -/
  isStrict : Bool
  isOver : Bool

namespace Shell

def status (s : Shell) : Nat :=
  s.process.status

def withProcess (s : Shell) (f : Process → Process) : Shell :=
  { s with process := f s.process }

def setStatus (s : Shell) (n : Nat) : Shell :=
  s.withProcess (·.exit n)

def set (s : Shell) (name value : Text) : Shell :=
  { s with bound := (name, value) :: s.bound.filter (·.1 ≠ name) }

def isDone (s : Shell) : Bool :=
  s.isOver || s.process.isExpired

def complain (s : Shell) (line : Nat) (t : Text) (status : Nat) : Shell :=
  s.withProcess fun p => (p.complainLine
    (s.name ++ ": ".toList ++ Text.ofNat line ++ ": ".toList ++ t)).exit status

def value? (s : Shell) (name : Text) : Option Text :=
  match name with
  | ['@'] => some (Text.join [' '] s.args)
  | ['*'] => some (Text.join [' '] s.args)
  | ['#'] => some (Text.ofNat s.args.length)
  | ['?'] => some (Text.ofNat s.status)
  | ['0'] => some s.name
  | name =>
    if !name.isEmpty && name.all Char.isDigit then
      s.args[name.foldl (fun n c => n * 10 + (c.toNat - 48)) 0 - 1]?
    else s.bound.lookup name

def value (s : Shell) (name : Text) : Text :=
  let id := name.takeWhile isNamePart
  match name.dropWhile isNamePart with
  | ':' :: '-' :: fallback => ((s.value? id).filter (!·.isEmpty)).getD fallback
  | '-' :: fallback => if id.isEmpty then (s.value? name).getD [] else (s.value? id).getD fallback
  | _ => (s.value? name).getD []

abbrev Field := List (Char × Bool)

structure Fields where
  finished : List Field
  current : Option Field

namespace Fields

def add (f : Fields) (isQuoted : Bool) (t : Text) : Fields :=
  { f with current := some (f.current.getD [] ++ t.map (·, !isQuoted)) }

def close (f : Fields) : Fields :=
  ⟨f.finished ++ f.current.toList, none⟩

def addSplit (f : Fields) (t : Text) : Fields :=
  t.foldl (fun f c => if isSpace c || c = '\n' then f.close else f.add false [c]) f

def addEach (f : Fields) : List Text → Fields
  | [] => f
  | [t] => f.add true t
  | t :: ts => (f.add true t).close.addEach ts

end Fields

def isWildcard : Char × Bool → Bool
  | (c, isBare) => isBare && (c = '*' || c = '?')

def hasForm : Field → Text → Bool
  | [], t => t.isEmpty
  | ('*', true) :: f, [] => hasForm f []
  | ('*', true) :: f, c :: cs => hasForm f (c :: cs) || hasForm (('*', true) :: f) cs
  | _ :: _, [] => false
  | (d, isBare) :: f, c :: cs => ((isBare && d = '?') || c = d) && hasForm f cs
termination_by f t => f.length + t.length

def namesOfForm (p : Process) (directory : Text) (f : Field) : List Text :=
  match p.tree.locate (p.path (if directory.isEmpty then ['.'] else directory)) with
  | .error _ => []
  | .ok place =>
    (p.tree.children ((p.tree.home.isPrefixOf? place).getD [])).filter fun name =>
      hasForm f name && (name.head? ≠ some '.' || f.head?.any (·.1 = '.'))

def Field.text (f : Field) : Text :=
  f.map (·.1)

def pathsOfForm (p : Process) : List Text → List Field → List Text
  | paths, [] => paths
  | paths, f :: fs =>
    let step (path : Text) : List Text :=
      if f.any isWildcard then (namesOfForm p path f).map (path ++ ·) else [path ++ Field.text f]
    let next := paths.flatMap step
    pathsOfForm p (if fs.isEmpty then next else next.map (· ++ ['/'])) fs

def fieldNames : Field → List Field
  | [] => [[]]
  | c :: f =>
    if c.1 = '/' then [] :: fieldNames f
    else match fieldNames f with
      | [] => [[c]]
      | n :: ns => (c :: n) :: ns

def fieldTexts (p : Process) (f : Field) : List Text :=
  if f.any isWildcard then
    match (pathsOfForm p [[]] (fieldNames f)).filter fun t => p.tree.exists? (p.path t) with
    | [] => [Field.text f]
    | paths => paths
  else [Field.text f]

abbrev Substitution := Text → Shell → Text × Shell

def expandParts (run : Substitution) : Word → Fields → Shell → Fields × Shell
  | [], f, s => (f, s)
  | .literal t isQuoted :: w, f, s =>
    expandParts run w (if t.isEmpty && !isQuoted then f else f.add isQuoted t) s
  | .parameter name isQuoted :: w, f, s =>
    if name = ['@'] && isQuoted then expandParts run w (f.addEach s.args) s
    else
      let t := s.value name
      expandParts run w (if isQuoted then f.add true t else f.addSplit t) s
  | .command script isQuoted :: w, f, s =>
    let (t, s) := run script s
    expandParts run w (if isQuoted then f.add true t else f.addSplit t) s

def openQuotes : Word → Word
  | .literal [] true :: .parameter ['@'] true :: w => .parameter ['@'] true :: w
  | w => w

def expandWord (run : Substitution) (w : Word) (s : Shell) : List Text × Shell :=
  let (f, s) := expandParts run (openQuotes w) ⟨[], none⟩ s
  (f.close.finished.flatMap (fieldTexts s.process), s)

def expandWords (run : Substitution) (ws : List Word) (s : Shell) : List Text × Shell :=
  ws.foldl (fun (ts, s) w =>
    let (us, s) := expandWord run w s
    (ts ++ us, s)) ([], s)

def Part.quote : Part → Part
  | .literal t _ => .literal t true
  | .parameter name _ => .parameter (if name = ['@'] then ['*'] else name) true
  | .command script _ => .command script true

def expandText (run : Substitution) (w : Word) (s : Shell) : Text × Shell :=
  let (ts, s) := expandWord run (w.map Part.quote) s
  (Text.join [' '] ts, s)

inductive Sink where
  | output
  | errors
  | nowhere
  | file (name : Text)
  deriving DecidableEq

structure Sinks where
  output : Sink
  errors : Sink

def Sink.pass (p : Process) (bytes : ByteArray) : Sink → Process
  | .output => p.emit bytes
  | .errors => { p with errors := p.errors ++ bytes }
  | .nowhere => p
  | .file name => Utility.appendTo bytes p name

def openPhrase (missing : Text) : OsFault → Text
  | .notFound => missing
  | .notADirectory => missing
  | fault => fault.phrase

def Sinks.set (sinks : Sinks) (stream : Nat) (sink : Sink) : Sinks :=
  if stream = 1 then { sinks with output := sink }
  else if stream = 2 then { sinks with errors := sink }
  else sinks

def Sinks.ofName (sinks : Sinks) (name : Text) : Sink :=
  if name = ['1'] then sinks.output else if name = ['2'] then sinks.errors else .nowhere

def nullDevice : Text := "/dev/null"

def openOne (line : Nat) (operator name : Text) (stream : Nat) (sinks : Sinks) (s : Shell) :
    Option Sinks × Shell :=
  if operator = ['>', '&'] || operator = ['<', '&'] then
    (some (sinks.set stream (sinks.ofName name)), s)
  else if name = nullDevice then
    if operator = ['<'] then (some sinks, s.withProcess ({ · with input := .empty }))
    else (some (sinks.set stream .nowhere), s)
  else if operator = ['<'] then
    match s.process.tree.read (s.process.path name) with
    | .ok bytes => (some sinks, s.withProcess ({ · with input := bytes }))
    | .error fault => (none, s.complain line ("cannot open ".toList ++ name ++ ": ".toList
        ++ openPhrase "No such file" fault) 2)
  else
    match Utility.openFile (operator = ['>', '>']) s.process name with
    | .ok tree => (some (sinks.set stream (.file name)), s.withProcess ({ · with tree }))
    | .error fault => (none, s.complain line ("cannot create ".toList ++ name ++ ": ".toList
        ++ openPhrase "Directory nonexistent" fault) 2)

def openAll (run : Substitution) (line : Nat) :
    List Redirection → Sinks → Shell → Option Sinks × Shell
  | [], sinks, s => (some sinks, s)
  | r :: rs, sinks, s =>
    let (name, s) := expandText run r.target s
    match openOne line r.operator name r.stream sinks s with
    | (none, s) => (none, s)
    | (some sinks, s) => openAll run line rs sinks s

/-- Runs a command with its streams redirected. Its input is its own only if it was given one. -/
def redirect (run : Substitution) (line : Nat) (rs : List Redirection) (body : Shell → Shell)
    (s : Shell) : Shell :=
  let outer := s.process
  match openAll run line rs ⟨.output, .errors⟩ s with
  | (none, s) => s.withProcess ({ · with input := outer.input })
  | (some sinks, s) =>
    let s := body (s.withProcess ({ · with output := .empty, errors := .empty }))
    let p := s.process
    let rest := if rs.any (·.stream = 0) then outer.input else p.input
    s.withProcess fun p' =>
      sinks.errors.pass (sinks.output.pass
        { p' with output := outer.output, errors := outer.errors, input := rest } p.output)
        p.errors

def octal (t : Text) : UInt8 × Text :=
  let digits := (t.take 3).takeWhile fun c => '0' ≤ c && c ≤ '7'
  (UInt8.ofNat (digits.foldl (fun n c => n * 8 + (c.toNat - 48)) 0), t.drop digits.length)

def escape? : Char → Option Char
  | 'n' => some '\n'
  | 't' => some '\t'
  | 'r' => some '\r'
  | 'a' => some '\x07'
  | 'b' => some '\x08'
  | 'f' => some '\x0c'
  | 'v' => some '\x0b'
  | '\\' => some '\\'
  | _ => none

/-- The bytes of a text with backslash escapes. In `echo` an octal number starts with a zero
of its own, and `\c` ends all output. -/
def unescape (isEcho : Bool) : Nat → Text → ByteArray × Bool
  | 0, _ => (.empty, false)
  | _ + 1, [] => (.empty, false)
  | n + 1, '\\' :: c :: rest =>
    let digits := if isEcho && c = '0' then rest else c :: rest
    if isEcho && c = 'c' then (.empty, true)
    else if (isEcho && c = '0') || (!isEcho && '0' ≤ c && c ≤ '7') then
      let (b, rest) := octal digits
      let (bytes, ended) := unescape isEcho n rest
      (⟨#[b]⟩ ++ bytes, ended)
    else
      let (bytes, ended) := unescape isEcho n rest
      match escape? c with
      | some d => (Text.encode [d] ++ bytes, ended)
      | none => (Text.encode ['\\', c] ++ bytes, ended)
  | n + 1, c :: rest =>
    let (bytes, ended) := unescape isEcho n rest
    (Text.encode [c] ++ bytes, ended)

/-- The arguments with blanks between them, and the end of a line unless it is left out. -/
def echo (args : List Text) (s : Shell) : Shell :=
  let (quiet, args) := match args with
    | ['-', 'n'] :: rest => (true, rest)
    | args => (false, args)
  let t := Text.join [' '] args
  let (bytes, ended) := unescape true (t.length + 1) t
  s.withProcess fun p =>
    (if quiet || ended then p.emit bytes else (p.emit bytes).say ['\n']).exit 0

def formatOnce : Nat → Text → List Text → ByteArray → ByteArray × List Text
  | 0, _, args, done => (done, args)
  | _ + 1, [], args, done => (done, args)
  | n + 1, '%' :: '%' :: rest, args, done => formatOnce n rest args (done ++ Text.encode ['%'])
  | n + 1, '%' :: c :: rest, args, done =>
    let arg := args.head?.getD []
    let bytes := match c with
      | 's' => Text.encode arg
      | 'b' => (unescape true (arg.length + 1) arg).1
      | 'c' => Text.encode (arg.take 1)
      | 'd' => Text.encode (if arg.isEmpty then ['0'] else arg)
      | 'i' => Text.encode (if arg.isEmpty then ['0'] else arg)
      | 'u' => Text.encode (if arg.isEmpty then ['0'] else arg)
      | c => Text.encode ['%', c]
    formatOnce n rest args.tail (done ++ bytes)
  | n + 1, '\\' :: c :: rest, args, done =>
    let taken := if '0' ≤ c && c ≤ '7' then (c :: rest).length - (octal (c :: rest)).2.length
      else 2 - 1
    formatOnce n ((c :: rest).drop taken) args
      (done ++ (unescape false 2 ('\\' :: (c :: rest).take taken)).1)
  | n + 1, c :: rest, args, done => formatOnce n rest args (done ++ Text.encode [c])

def formatAll (format : Text) : Nat → List Text → ByteArray → ByteArray
  | 0, _, done => done
  | n + 1, args, done =>
    let (done, rest) := formatOnce (format.length + 1) format args done
    if rest.isEmpty || rest.length = args.length then done else formatAll format n rest done

def printf (line : Nat) (args : List Text) (s : Shell) : Shell :=
  match args with
  | [] => s.complain line "printf: usage: printf format [arg ...]" 2
  | format :: args =>
    s.withProcess fun p => (p.emit (formatAll format (args.length + 1) args .empty)).exit 0

def number? (t : Text) : Option Nat :=
  (Number.bounded (Nat.pow 2 63) t).toOption

def holds (s : Shell) : List Text → Bool
  | ['!'] :: rest => !holds s rest
  | [op, t] =>
    match String.ofList op with
    | "-n" => !t.isEmpty
    | "-z" => t.isEmpty
    | "-e" => s.process.tree.exists? (s.process.path t)
    | "-d" => s.process.tree.isDirectory (s.process.path t)
    | "-f" => (s.process.tree.read (s.process.path t)).isOk
    | "-s" =>
      match s.process.tree.read (s.process.path t) with
      | .ok bytes => bytes.size ≠ 0
      | .error _ => false
    | _ => false
  | [a, op, b] =>
    match String.ofList op with
    | "=" => a = b
    | "!=" => a ≠ b
    | "-eq" => number? a = number? b
    | "-ne" => number? a ≠ number? b
    | _ => false
  | [t] => !t.isEmpty
  | _ => false

def test (args : List Text) (s : Shell) : Shell :=
  s.setStatus (if s.holds args then 0 else 1)

def exit (line : Nat) (args : List Text) (s : Shell) : Shell :=
  let s := match args with
    | [] => s
    | t :: _ =>
      match (Number.bounded (Nat.pow 2 31) t).toOption with
      | some n => s.setStatus (n % 256)
      | none => s.complain line ("exit: Illegal number: ".toList ++ t) 2
  { s with isOver := true }

def shift (line : Nat) (args : List Text) (s : Shell) : Shell :=
  let n := (args.head?.bind fun t => (Number.bounded (Nat.pow 2 31) t).toOption).getD 1
  if n ≤ s.args.length then { s.setStatus 0 with args := s.args.drop n }
  else { s.complain line "shift: can't shift that many" 2 with isOver := true }

def exportAll (args : List Text) (s : Shell) : Shell :=
  args.foldl (fun s t =>
    match Text.splitAt? ['='] t with
    | some (name, value) => s.set name value
    | none => s) (s.setStatus 0)

def unset (args : List Text) (s : Shell) : Shell :=
  { s.setStatus 0 with bound := s.bound.filter fun v => !args.contains v.1 }

def readLine (args : List Text) (s : Shell) : Shell :=
  let bytes := s.process.input.toList
  let line := Text.trim (Text.decodeLossy ⟨(bytes.takeWhile (· ≠ 10)).toArray⟩)
  let rest := (bytes.dropWhile (· ≠ 10)).drop 1
  let s := s.withProcess fun p =>
    { p with input := ⟨rest.toArray⟩, status := if bytes.contains 10 then 0 else 1 }
  assignWords args line s
where
  assignWords : List Text → Text → Shell → Shell
    | [], _, s => s
    | [name], t, s => s.set name t
    | name :: names, t, s =>
      assignWords names (Text.trimLeft (t.dropWhile fun c => !isSpace c))
        (s.set name (t.takeWhile fun c => !isSpace c))

def setOptions (args : List Text) (s : Shell) : Shell :=
  match args with
  | ('-' :: flags) :: _ => { s.setStatus 0 with isStrict := s.isStrict || flags.contains 'e' }
  | ('+' :: flags) :: _ => { s.setStatus 0 with isStrict := s.isStrict && !flags.contains 'e' }
  | _ => s.setStatus 0

def changeDirectory (line : Nat) (args : List Text) (s : Shell) : Shell :=
  match args with
  | [] => s.setStatus 0
  | name :: _ =>
    if s.process.tree.isDirectory (s.process.path name) then
      s.withProcess fun p => { p with directory := p.path name, status := 0 }
    else s.complain line ("cd: can't cd to ".toList ++ name) 2

def workingDirectory (p : Process) : Text :=
  match p.tree.locate p.directory with
  | .ok place => place.flatMap ('/' :: ·)
  | .error _ => p.directory

def builtin? (line : Nat) (name : Text) : Option (List Text → Shell → Shell) :=
  match String.ofList name with
  | ":" => some fun _ s => s.setStatus 0
  | "true" => some fun _ s => s.setStatus 0
  | "false" => some fun _ s => s.setStatus 1
  | "echo" => some echo
  | "printf" => some (printf line)
  | "test" => some test
  | "[" => some fun args s => test args.dropLast s
  | "exit" => some (exit line)
  | "set" => some setOptions
  | "cd" => some (changeDirectory line)
  | "export" => some exportAll
  | "unset" => some unset
  | "read" => some readLine
  | "shift" => some (shift line)
  | "pwd" => some fun _ s =>
    s.withProcess fun p => (p.say (workingDirectory p ++ ['\n'])).exit 0
  | _ => none

def utilityPrefixes : List Text :=
  ["/usr/bin/", "/bin/"]

def utilityName? (hasUtilities : Bool) (program : Text) : Option Text :=
  if program.contains '/' then utilityPrefixes.findSome? (·.isPrefixOf? program)
  else if hasUtilities then some program else none

def startFault (p : Process) (program : Text) : OsFault :=
  if program.contains '/' then
    match p.tree.nodeAt (p.path program) with
    | .ok _ => .denied
    | .error fault => fault
  else .notFound

def notStarted (line : Nat) (name : Text) (s : Shell) : Shell :=
  match startFault s.process name with
  | .denied => s.complain line (name ++ ": Permission denied".toList) 126
  | _ => s.complain line (name ++ ": not found".toList) 127

abbrev ShellRun := List Text → Process → Process

def invoke (shell : ShellRun) (line : Nat) (name : Text) (args : List Text) (s : Shell) :
    Shell :=
  match if name.contains '/' then none else builtin? line name with
  | some run => run args s
  | none =>
    match utilityName? s.hasUtilities name with
    | none => notStarted line name s
    | some utility =>
      if utility = "sh".toList then s.withProcess (shell args)
      else match Utility.named? utility with
        | some run => s.withProcess fun p => run args { p with name, status := 0 }
        | none => notStarted line name s

def assign (run : Substitution) (assignments : List (Text × Word)) (s : Shell) : Shell :=
  assignments.foldl (fun s (name, w) =>
    let (value, s) := expandText run w s
    s.set name value) s

def runSimple (run : Substitution) (shell : ShellRun) (line : Nat)
    (assignments : List (Text × Word)) (words : List Word) (s : Shell) : Shell :=
  let (fields, s) := expandWords run words s
  match fields with
  | [] => assign run assignments (s.setStatus 0)
  | ['e', 'x', 'e', 'c'] :: name :: args => { invoke shell line name args s with isOver := true }
  | name :: args =>
    if assignments.isEmpty then invoke shell line name args s
    else { invoke shell line name args (assign run assignments s) with bound := s.bound }

/-- Runs a command in a shell of its own: what it does to variables is forgotten. -/
def apart (body : Shell → Shell) (s : Shell) : Shell :=
  let t := body s
  { s with process := { t.process with directory := s.process.directory } }

def unlessDone (body : Shell → Shell) (s : Shell) : Shell :=
  if s.isDone then s else body s

def checked (s : Shell) : Shell :=
  if s.isStrict && s.status ≠ 0 then { s with isOver := true } else s

def tried (body : Shell → Shell) (s : Shell) : Shell :=
  { body { s with isStrict := false } with isStrict := s.isStrict }

def runCommand (run : Substitution) (shell : ShellRun) : Command → Shell → Shell
  | .nothing, s => s
  | .simple line assignments words, s => checked (runSimple run shell line assignments words s)
  | .redirected line rs body, s => redirect run line rs (runCommand run shell body) s
  | .pipe left right, s =>
    let outer := s.process
    let l := apart (runCommand run shell left)
      (s.withProcess ({ · with output := .empty }))
    let r := apart (runCommand run shell right) (l.withProcess
      ({ · with input := l.process.output, output := outer.output }))
    checked (r.withProcess ({ · with input := l.process.input }))
  | .both left right, s =>
    let l := tried (runCommand run shell left) s
    if l.status = 0 then unlessDone (runCommand run shell right) l else l
  | .either left right, s =>
    let l := tried (runCommand run shell left) s
    if l.status = 0 then l else unlessDone (runCommand run shell right) l
  | .negated body, s =>
    let t := tried (runCommand run shell body) s
    t.setStatus (if t.status = 0 then 1 else 0)
  | .sequence first next, s =>
    unlessDone (runCommand run shell next) (runCommand run shell first s)
  | .each name words body, s =>
    let (values, s) := match words with
      | some ws => expandWords run ws s
      | none => (s.args, s)
    values.foldl (fun s value => unlessDone (fun s => runCommand run shell body (s.set name value)) s)
      (s.setStatus 0)
  | .choice condition yes no, s =>
    let c := tried (runCommand run shell condition) s
    if c.status = 0 then unlessDone (runCommand run shell yes) c
    else unlessDone (runCommand run shell no) (c.setStatus 0)
  | .nested body, s => checked (apart (runCommand run shell body) s)

/-- Runs the complete commands of a script one by one. A fault is met when it is reached. -/
def runTokens (run : Substitution) (shell : ShellRun) (last : Nat) :
    Nat → Tokens → Shell → Shell
  | 0, _, s => s
  | n + 1, tokens, s =>
    if s.isDone then s
    else match skipLines tokens with
      | [] => s
      | tokens =>
        match completeCommand last (tokens.length + 1) tokens with
        | .error fault => { s.complain fault.line ("Syntax error: ".toList ++ fault.message) 2
            with isOver := true }
        | .ok (c, rest) => runTokens run shell last n rest (runCommand run shell c s)

def lastLine (script : Text) : Nat :=
  script.count '\n' + 1

def substituted (bytes : ByteArray) : Text :=
  Text.dropEndWhile (· = '\n') (Text.decodeLossy bytes)

structure Job where
  name : Text
  script : Text
  args : List Text
  bound : List (Text × Text)
  isStrict : Bool

def givenJob (isStrict : Bool) : List Text → Except (Process → Process) Job
  | [] => .error fun p => (p.complainLine "sh: 0: -c requires an argument").exit 2
  | script :: rest => .ok ⟨rest.head?.getD "sh", script, rest.drop 1, [], isStrict⟩

def job (args : List Text) (p : Process) : Except (Process → Process) (Job × Process) :=
  match args with
  | [] => standing false
  | ['-', 'c'] :: rest => (givenJob false rest).map (·, p)
  | ['-', 'e', 'c'] :: rest => (givenJob true rest).map (·, p)
  | ['-', 'e'] :: ['-', 'c'] :: rest => (givenJob true rest).map (·, p)
  | [['-', 'e']] => standing true
  | ['-', 'e'] :: name :: rest => named true name rest
  | name :: rest => named false name rest
where
  standing (isStrict : Bool) : Except (Process → Process) (Job × Process) :=
    let (bytes, p) := p.drain
    .ok (⟨"sh", Text.decodeLossy bytes, [], [], isStrict⟩, p)
  named (isStrict : Bool) (name : Text) (rest : List Text) :
      Except (Process → Process) (Job × Process) :=
    match p.tree.read (p.path name) with
    | .ok bytes => .ok (⟨name, Text.decodeLossy bytes, rest, [], isStrict⟩, p)
    | .error .isADirectory => .ok (⟨name, [], rest, [], isStrict⟩, p)
    | .error fault => .error fun p => (p.complainLine ("sh: 0: cannot open ".toList ++ name
        ++ ": ".toList ++ openPhrase "No such file" fault)).exit 2

def runScript (hasUtilities : Bool) : Nat → Job → Process → Process
  | 0, _, p => p.exit 2
  | depth + 1, job, p =>
    let shell : ShellRun := fun args p =>
      match Shell.job args p with
      | .ok (job, p) => runScript hasUtilities depth job p
      | .error complain => complain p
    let substitution : Substitution := fun script s =>
      let p := runScript hasUtilities depth ⟨s.name, script, s.args, s.bound, s.isStrict⟩
        { s.process with output := .empty }
      (substituted p.output, s.withProcess fun q => { p with output := q.output })
    let start : Shell :=
      ⟨p.exit 0, job.name, job.args, job.bound, hasUtilities, job.isStrict, false⟩
    let tokens := scriptTokens job.script
    (runTokens substitution shell (lastLine job.script) (tokens.length + 1) tokens start).process

def maxDepth : Nat := 40

end Shell
end Pagewright
