import Pagewright.Host.Basic

namespace Pagewright

structure Process where
  /-- The name under which the program was started. -/
  name : Text
  tree : FileTree
  /-- The directory in which relative paths start. -/
  directory : Text
  /-- What is left to be read. -/
  input : ByteArray
  output : ByteArray
  errors : ByteArray
  status : Nat
  /-- The milliseconds spent so far. -/
  elapsed : Nat
  limit : Option Nat

namespace Process

def path (p : Process) (t : Text) : Text :=
  if t.isEmpty then [] else Path.join p.directory t

def isExpired (p : Process) : Bool :=
  p.limit.any (· ≤ p.elapsed)

def exit (p : Process) (status : Nat) : Process :=
  { p with status }

def emit (p : Process) (bytes : ByteArray) : Process :=
  { p with output := p.output ++ bytes }

def say (p : Process) (t : Text) : Process :=
  p.emit (Text.encode t)

def complainLine (p : Process) (t : Text) : Process :=
  { p with errors := p.errors ++ Text.encode (t ++ ['\n']) }

def complain (p : Process) (t : Text) : Process :=
  p.complainLine (p.name ++ ": " ++ t)

def fail (p : Process) (t : Text) : Process :=
  (p.complain t).exit 1

def drain (p : Process) : ByteArray × Process :=
  (p.input, { p with input := .empty })

def sleep (p : Process) (milliseconds : Nat) : Process :=
  { p with elapsed := p.elapsed + milliseconds }

def change (p : Process) (op : FileTree → Except OsFault FileTree)
    (complaint : OsFault → Text) : Process :=
  match op p.tree with
  | .ok tree => { p with tree }
  | .error fault => p.fail (complaint fault)

end Process
end Pagewright
