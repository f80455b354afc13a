import Pagewright.Compilation
import Pagewright.Pointer
import Pagewright.Task

namespace Pagewright

namespace Task

def readText (path : Text) : Task Failure Text := do
  ofExcept (((← tree).readText path).mapError .os)

end Task

def Pointer.find (component : Text) : Task Failure Pointer := do
  let text ← Task.readText component
  match read? ((Text.lines text).head?.getD []) with
  | some p =>
    Task.report ⟨.debug, component ++ " points to " ++ p.text⟩
    return p
  | none => throw (.pointerNotFound component)

def Source.load [CharacterNames] (path : Text) : Task Failure Source := do
  let source ← Task.ofExcept (ofText path (← Task.readText path))
  Task.report source.readEvent
  return source

namespace Binding

def loadedEvent (name : Text) (b : Binding) : Event :=
  ⟨.info, "Loaded module '" ++ name ++ "' (" ++ Text.ofNat b.props.length ++ " prop(s), "
    ++ Text.ofNat b.routes.length ++ " route(s))"⟩

/-- Loads the binding that a pointer names. Its component has to be there. -/
def load [CharacterNames] (pointer : Pointer) (root : Text) : Task Failure Binding := do
  let source ← Source.load (Path.join root pointer.backend)
  let b ← Task.ofExcept (ofSource source pointer.binding)
  let component := Path.join root b.component
  if !(← Task.tree).exists? component then
    throw (.componentNotFound component)
  Task.report (loadedEvent pointer.binding b)
  return b

def extract [CharacterNames] (b : Binding) : Task Failure Extraction := do
  let source ← Source.load b.backend
  Task.reportAll (Extraction.events source b.routes)
  Task.ofExcept (Extraction.ofSource source b.routes)

def server [CharacterNames] (b : Binding) : Task Failure Text := do
  let e ← b.extract
  let t ← Task.ofExcept (Server.generate e.routes e.imports)
  Task.report (Server.doneEvent e.routes)
  return t

def client [CharacterNames] (b : Binding) : Task Failure Client := do
  let e ← b.extract
  Task.ofExcept (Client.generate e.routes)

end Binding
end Pagewright
