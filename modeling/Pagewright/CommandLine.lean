import Pagewright.Command

namespace Pagewright

inductive UsageFault where
  | noCommand
  | unknownCommand (name : Text)
  | unknownOption (written : Text)
  | noValue (option : Text)
  | unwantedValue (option : Text)
  | badValue (option value : Text)
  | repeated (option : Text)
  | unwantedOperand (operand : Text)
  | missingOperand (name : Text)
  deriving DecidableEq, Repr

def UsageFault.message : UsageFault → Text
  | .noCommand => "a command is required"
  | .unknownCommand name => "unrecognized command '" ++ name ++ "'"
  | .unknownOption written => "unexpected argument '" ++ written ++ "'"
  | .noValue option => "a value is required for '" ++ option ++ "'"
  | .unwantedValue option => "no value is allowed for '" ++ option ++ "'"
  | .badValue option value => "invalid value '" ++ value ++ "' for '" ++ option ++ "'"
  | .repeated option => "'" ++ option ++ "' cannot be used multiple times"
  | .unwantedOperand operand => "unexpected argument '" ++ operand ++ "'"
  | .missingOperand name => "'" ++ name ++ "' is required"

namespace CommandLine

/-- What may stand as the value of an option. A path may not be empty. -/
inductive Kind where
  | switch
  | text
  | path
  | number
  | help
  deriving DecidableEq, Repr

structure Opt where
  name : Text
  short : Option Char
  kind : Kind

structure Given where
  options : List (Text × Text)
  operands : List Text
  /-- Whether a description of the program is asked for. -/
  asksHelp : Bool

namespace Given

def none : Given :=
  ⟨[], [], false⟩

def value? (g : Given) (name : Text) : Option Text :=
  g.options.lookup name

def hasSwitch (g : Given) (name : Text) : Bool :=
  (g.value? name).isSome

def number? (g : Given) (name : Text) : Option Nat :=
  (g.value? name).bind fun t => (Number.bounded Settings.secondsBound t).toOption

end Given

def Kind.accepts (value : Text) : Kind → Bool
  | .path => !value.isEmpty
  | .number => (Number.bounded Settings.secondsBound value).isOk
  | _ => true

def Given.add (g : Given) (o : Opt) (value : Text) : Except UsageFault Given :=
  if g.hasSwitch o.name then .error (.repeated o.name)
  else if o.kind.accepts value then .ok { g with options := g.options ++ [(o.name, value)] }
  else .error (.badValue o.name value)

def commonOptions : List Opt :=
  [⟨"log-level", none, .text⟩, ⟨"help", some 'h', .help⟩]

inductive Argument where
  | endOfOptions
  | long (name : Text) (value : Option Text)
  | short (letter : Char) (rest : Text)
  | operand (t : Text)

def Argument.of : Text → Argument
  | ['-', '-'] => .endOfOptions
  | '-' :: '-' :: t =>
    match Text.splitAt? ['='] t with
    | some (name, value) => .long name (some value)
    | none => .long t none
  | '-' :: c :: rest => .short c rest
  | t => .operand t

def find? (options : List Opt) : Argument → Option (Opt × Option Text)
  | .long name value => (options.find? (·.name = name)).map fun o => (o, value)
  | .short c rest =>
    (options.find? (·.short = some c)).map fun o =>
      (o, match rest with
        | [] => none
        | '=' :: value => some value
        | value => some value)
  | _ => none

/-- Reads arguments. Where `stops` is set, the first operand ends them and is left with what
follows it. -/
def read (options : List Opt) (stops : Bool) :
    List Text → Given → Except UsageFault (Given × List Text)
  | [], g => .ok (g, [])
  | arg :: rest, g =>
    match Argument.of arg with
    | .endOfOptions =>
      if stops then
        match rest with
        | [] => .ok (g, [])
        | t :: _ => .error (.unwantedOperand t)
      else .ok ({ g with operands := g.operands ++ rest }, [])
    | .operand t =>
      if stops then .ok (g, t :: rest)
      else read options stops rest { g with operands := g.operands ++ [t] }
    | a =>
      match find? options a with
      | none => .error (.unknownOption arg)
      | some (o, value) =>
        match o.kind, value with
        | .help, none => .ok ({ g with asksHelp := true }, [])
        | .help, some _ => .error (.unwantedValue o.name)
        | .switch, some _ => .error (.unwantedValue o.name)
        | .switch, none => do read options stops rest (← g.add o [])
        | _, some value => do read options stops rest (← g.add o value)
        | _, none =>
          match rest with
          | [] => .error (.noValue o.name)
          | value :: rest =>
            match Argument.of value with
            | .operand value => do read options stops rest (← g.add o value)
            | _ => .error (.noValue o.name)

inductive Request where
  | help
  | new (directory : Text) (installs : Bool)
  | build (server page : Text) (component bundler : Option Text) (timeout : Option Nat)
  | interface (out : Text) (component : Option Text)
  | link (component : Option Text)
  deriving DecidableEq, Repr

/-- A command: its options, its operand if it has one, and the request that it makes. -/
structure CommandForm where
  name : Text
  options : List Opt
  operand : Option Text
  request : Given → Request

def componentOption : Opt :=
  ⟨"component", none, .text⟩

def newForm : CommandForm where
  name := "new"
  options := [⟨"no-install", none, .switch⟩]
  operand := some "DIRECTORY"
  request g := .new (g.operands.head?.getD []) (!g.hasSwitch "no-install")

def buildForm : CommandForm where
  name := "build"
  options := [⟨"html", none, .path⟩, ⟨"py", none, .path⟩, componentOption,
    ⟨"bundler", none, .text⟩, ⟨"bundle-timeout", none, .number⟩]
  operand := none
  request g := .build ((g.value? "py").getD "main.py") ((g.value? "html").getD "index.html")
    (g.value? "component") (g.value? "bundler") (g.number? "bundle-timeout")

def interfaceForm : CommandForm where
  name := "interface"
  options := [⟨"out", some 'o', .path⟩, componentOption]
  operand := none
  request g := .interface ((g.value? "out").getD "src/api.js") (g.value? "component")

def linkForm : CommandForm where
  name := "link"
  options := [componentOption]
  operand := none
  request g := .link (g.value? "component")

def forms : List CommandForm :=
  [newForm, buildForm, interfaceForm, linkForm]

def checkOperands (form : CommandForm) (g : Given) : Except UsageFault Unit :=
  match form.operand, g.operands with
  | none, [] => .ok ()
  | none, t :: _ => .error (.unwantedOperand t)
  | some name, [] => .error (.missingOperand name)
  | some name, [t] => if t.isEmpty then .error (.badValue name t) else .ok ()
  | some _, _ :: t :: _ => .error (.unwantedOperand t)

structure Invocation where
  request : Request
  shown : List Level
  deriving DecidableEq, Repr

def Invocation.of (given : List Given) (request : Request) : Invocation :=
  ⟨request, Level.shownFrom ((given.findSome? (·.value? "log-level")).getD "warn")⟩

def readForm (form : CommandForm) (outer : Given) (args : List Text) :
    Except UsageFault Invocation := do
  let (g, _) ← read (form.options ++ commonOptions) false args .none
  if g.asksHelp then return .of [g, outer] .help
  checkOperands form g
  return .of [g, outer] (form.request g)

def invocation (args : List Text) : Except UsageFault Invocation := do
  let (g, rest) ← read (⟨"version", some 'V', .help⟩ :: commonOptions) true args .none
  if g.asksHelp then return .of [g] .help
  match rest with
  | [] => throw .noCommand
  | name :: rest =>
    match forms.find? (·.name = name) with
    | some form => readForm form g rest
    | none =>
      if name = "help".toList then
        match rest.find? fun t => !(forms.any (·.name = t)) with
        | none => return .of [g] .help
        | some t => throw (.unknownCommand t)
      else throw (.unknownCommand name)

def perform [CharacterNames] (host : Host) (env : Environment) (root : Text) :
    Request → Task CommandFailure Unit
  | .help => return
  | .new directory installs => Command.new host directory installs
  | .build server page component bundler timeout => do
    let bundler ← Task.ofExcept (Settings.bundler env bundler timeout)
    Command.build host root ⟨Settings.component env component, page, server, bundler⟩
  | .interface out component => do
    let _ ← Command.interface root (Settings.component env component) out
  | .link component => do
    let entry ← Command.link root (Settings.component env component)
    Task.print [.text (entry ++ ['\n'])]

inductive Ending where
  | done
  | failed (failure : CommandFailure)
  | misused (fault : UsageFault)
  deriving DecidableEq, Repr

def Ending.status : Ending → Nat
  | .done => 0
  | .failed _ => 1
  | .misused _ => 2

def Ending.complaint? : Ending → Option Text
  | .done => none
  | .failed failure => some ("Error: " ++ failure.message ++ ['\n'])
  | .misused fault => some ("error: " ++ fault.message ++ ['\n'])

def run [CharacterNames] (host : Host) (env : Environment) (args : List Text) (world : World) :
    Ending × World :=
  match invocation args with
  | .error fault => (.misused fault, world)
  | .ok i =>
    match (perform host env world.tree.homePath i.request).runIn world with
    | (.ok (), world) => (.done, world)
    | (.error failure, world) => (.failed failure, world)

end CommandLine
end Pagewright
