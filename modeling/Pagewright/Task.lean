import Pagewright.CommandFailure
import Pagewright.Event
import Pagewright.Files.Tree

namespace Pagewright

inductive Printed where
  | text (t : Text)
  | elapsed
  deriving DecidableEq, Repr

def Printed.render (elapsed : Text) (pieces : List Printed) : Text :=
  pieces.flatMap fun
    | .text t => t
    | .elapsed => elapsed

structure World where
  tree : FileTree
  events : List Event
  printed : List Printed

namespace World

def ofTree (tree : FileTree) : World :=
  ⟨tree, [], []⟩

end World

/-- Work on the files of a project that reports events, prints, and may fail. What was done before a
failure stays done. -/
abbrev Task (ε : Type) := ExceptT ε (StateM World)

namespace Task

variable {ε ε' α : Type}

def runIn (task : Task ε α) (world : World) : Except ε α × World :=
  task.run.run world

def tree : Task ε FileTree := do
  return (← get).tree

def setTree (tree : FileTree) : Task ε Unit :=
  modify ({ · with tree })

def report (event : Event) : Task ε Unit :=
  modify fun w => { w with events := w.events ++ [event] }

def reportAll (events : List Event) : Task ε Unit :=
  modify fun w => { w with events := w.events ++ events }

def print (pieces : List Printed) : Task ε Unit :=
  modify fun w => { w with printed := w.printed ++ pieces }

def ofExcept (result : Except ε α) : Task ε α :=
  ExceptT.mk (pure result)

def mapError (f : ε → ε') (task : Task ε α) : Task ε' α :=
  task.adapt f

def change (op : FileTree → Except ε FileTree) : Task ε Unit := do
  setTree (← ofExcept (op (← tree)))

def changeAlways (op : FileTree → Except ε α × FileTree) : Task ε α := do
  let (result, after) := op (← tree)
  setTree after
  ofExcept result

def followedBy (task : Task ε α) (last : Task ε Unit) : Task ε α := do
  let result ← liftM (m := StateM World) task.run
  last
  ofExcept result

end Task
end Pagewright
