import Pagewright.CommandFailure
import Pagewright.Text.Blank

namespace Pagewright

structure Bundler where
  program : Text
  args : List Text
  limit : Nat
  deriving DecidableEq, Repr

namespace Bundler

/-- The default command. `{out}` stands for the path of the script that it writes. -/
def defaultCommand : Text :=
  "npx rollup --silent --config --file \x7bout\x7d"

def defaultSeconds : Nat := 120

/-- Reads a command line: words between blanks, the first of which is the program. Quotes have
no meaning. -/
def ofCommandLine (command : Text) (limit : Nat) : Except Failure Bundler :=
  match Text.words command with
  | [] => .error (.bundle .emptyCommand)
  | program :: args => .ok ⟨program, args, limit⟩

end Bundler

/-- The settings that the environment gives, as they are written there. A variable whose value is
not Unicode counts as one that is not set. -/
structure Environment where
  component : Option Text
  bundler : Option Text
  timeout : Option Text

namespace Settings

def defaultComponent : Text :=
  "src/App.svelte"

/-- A text setting: its flag, else what the environment gives, else the default. A blank value in
the environment counts as none, a blank flag does not. -/
def pick (flag environment : Option Text) (fallback : Text) : Text :=
  (flag <|> environment.filter (!Text.isAllBlank ·)).getD fallback

def component (env : Environment) (flag : Option Text) : Text :=
  pick flag env.component defaultComponent

def secondsBound : Nat := Nat.pow 2 64

def seconds (env : Environment) (flag : Option Nat) : Except CommandFailure Nat :=
  match flag, env.timeout with
  | some n, _ => .ok n
  | none, none => .ok Bundler.defaultSeconds
  | none, some written =>
    match Number.bounded secondsBound (Text.trim written) with
    | .ok n => .ok n
    | .error fault => .error (.badTimeout written fault)

/-- The bundler with its limit. A fault of the limit is reported before one of the command. -/
def bundler (env : Environment) (command : Option Text) (timeout : Option Nat) :
    Except CommandFailure Bundler := do
  let n ← seconds env timeout
  if n = 0 then throw .zeroTimeout
  match Bundler.ofCommandLine (pick command env.bundler Bundler.defaultCommand) (n * 1000) with
  | .ok b => return b
  | .error f => throw (.failure f)

end Settings
end Pagewright
