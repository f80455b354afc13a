import Pagewright.Host.Basic
import Pagewright.Page
import Pagewright.Settings
import Pagewright.Task
import Pagewright.Text.Lines

namespace Pagewright

structure Bundle where
  script : Text
  style : Option Text
  deriving DecidableEq, Repr

namespace Bundle

def page (b : Bundle) : Text :=
  Page.render b.script (b.style.getD [])

def cacheName : Text := "__buildcache__"

def scriptTarget : Text :=
  "./" ++ cacheName ++ "/bundle.js"

def cachePath (root : Text) : Text :=
  Path.join root cacheName

def argument (arg : Text) : Text :=
  Text.replace arg "\x7bout\x7d" scriptTarget

def openCache (root : Text) : Task Failure Unit := do
  let path := cachePath root
  if (← Task.tree).exists? path then
    Task.report ⟨.debug, "Removing stale build cache " ++ path⟩
    Task.change fun tree => (tree.removeAll path).mapError .os
  Task.mapError .os (Task.changeAlways (·.makeDirs path))

/-- Removes the build cache. That it cannot be removed is only reported. -/
def closeCache (root : Text) : Task Failure Unit := do
  let path := cachePath root
  match (← Task.tree).removeAll path with
  | .ok tree =>
    Task.setTree tree
    Task.report ⟨.debug, "Removed build cache " ++ path⟩
  | .error .notFound => return
  | .error fault =>
    Task.report ⟨.warn, "Failed to remove build cache " ++ path ++ ": " ++ fault.message⟩

def invocation (entry : Text) (bundler : Bundler) (root : Text) : Invocation where
  directory := root
  program := bundler.program
  args := bundler.args.map argument
  input := entry
  limit := some bundler.limit

def fault? (bundler : Bundler) : Outcome → Option BundleFault
  | .notStarted fault => some (.notStarted bundler.program fault)
  | .timedOut => some (.timedOut bundler.program bundler.limit)
  | .exited 0 _ => none
  | .exited status errors =>
    some (.exited bundler.program status (Text.trim (Text.decodeLossy errors)))

/-- Reads what the bundler wrote. There need not be a stylesheet. -/
def collect (tree : FileTree) (root : Text) : Except Failure Bundle := do
  let scriptPath := Path.join (cachePath root) "bundle.js"
  let script ← (tree.readText scriptPath).mapError (.bundle <| .noScript scriptPath ·)
  match tree.readText (Path.join (cachePath root) "bundle.css") with
  | .ok style => return ⟨script, some style⟩
  | .error .notFound => return ⟨script, none⟩
  | .error fault => throw (.os fault)

def doneEvent (b : Bundle) : Event :=
  ⟨.info, "Bundled " ++ Text.ofNat (Text.size b.script) ++ " bytes of script, "
    ++ Text.ofNat (Text.size (b.style.getD [])) ++ " bytes of style"⟩

def runOpen (host : Host) (entry : Text) (bundler : Bundler) (root : Text) :
    Task Failure Bundle := do
  let i := invocation entry bundler root
  Task.report ⟨.info, "Running bundler: " ++ i.program ++ ' ' :: Text.join [' '] i.args⟩
  let (outcome, tree) := host.run i (← Task.tree)
  Task.setTree tree
  match fault? bundler outcome with
  | some fault => throw (.bundle fault)
  | none =>
    let b ← Task.ofExcept (collect tree root)
    Task.report b.doneEvent
    return b

/-- Runs the bundler in the root of a project with the entry text as its input. The cache is new at
the start of a run and gone at its end. -/
def run (host : Host) (entry : Text) (bundler : Bundler) (root : Text) :
    Task Failure Bundle := do
  openCache root
  (runOpen host entry bundler root).followedBy (closeCache root)

end Bundle
end Pagewright
