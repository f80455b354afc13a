import Pagewright.Binding
import Pagewright.Client
import Pagewright.Route.Extraction

namespace Pagewright

structure Compilation where
  server : Text
  client : Client
  entry : Text

def Server.doneEvent (routes : List Route) : Event :=
  ⟨.info, "Emitted server with " ++ Text.ofNat routes.length ++ " route(s)"⟩

namespace Compilation

def ofSource (source : Source) (binding : Text) : Except Failure Compilation := do
  let b ← Binding.ofSource source binding
  let e ← Extraction.ofSource source b.routes
  let client ← Client.generate e.routes
  let server ← Server.generate e.routes e.imports
  return ⟨server, client, b.entry⟩

def events (source : Source) (binding : Text) : List Event :=
  match Binding.ofSource source binding with
  | .error _ => []
  | .ok b =>
    Extraction.events source b.routes ++ match Extraction.ofSource source b.routes with
      | .ok e => [Server.doneEvent e.routes]
      | .error _ => []

end Compilation
end Pagewright
