import Pagewright.Bundle
import Pagewright.Project
import Pagewright.Scaffold

namespace Pagewright.Command

def loadBinding [CharacterNames] (root component : Text) : Task CommandFailure Binding := do
  let path := Path.join root component
  let pointer ← Task.mapError (.during (.reading path) ∘ .failure) (Pointer.find path)
  Task.mapError (.during (.loading pointer.text) ∘ .failure) (Binding.load pointer root)

def writeOutput (path contents : Text) : Task CommandFailure Unit := do
  match Path.parent? path with
  | some (c :: cs) =>
    Task.mapError (.during (.creating (c :: cs)) ∘ .os) (Task.changeAlways (·.makeDirs (c :: cs)))
  | _ => pure ()
  Task.mapError (.during (.writing path) ∘ .os)
    (Task.change (·.write path (Text.encode contents)))

structure BuildOptions where
  component : Text
  page : Text
  server : Text
  bundler : Bundler

def timed (before after : Text) : List Printed :=
  [.text before, .elapsed, .text (after ++ ['\n'])]

def build [CharacterNames] (host : Host) (root : Text) (options : BuildOptions) :
    Task CommandFailure Unit := do
  let b ← loadBinding root options.component
  let server ← Task.mapError .failure b.server
  Task.print (timed "✓ Backend code compiled in " ['s'])
  let bundle ← Task.mapError .failure (Bundle.run host b.entry options.bundler root)
  Task.print (timed "✓ Frontend code compiled in " ['s'])
  let serverPath := Path.join root options.server
  let pagePath := Path.join root options.page
  writeOutput serverPath server
  writeOutput pagePath bundle.page
  Task.report ⟨.info, "Wrote " ++ serverPath ++ " and " ++ pagePath⟩
  Task.print [.text ("You can now run the app with `python3 " ++ options.server ++ "`\n")]

def tablesNote : Text :=
  "ⓘ This project uses Pandas dataframes in some places. Consider `npm install dataframe-js` to work with them in the browser.\n"

def interface [CharacterNames] (root component out : Text) : Task CommandFailure Bool := do
  let b ← loadBinding root component
  let client ← Task.mapError .failure b.client
  let path := Path.join root out
  writeOutput path client.source
  Task.report ⟨.info, "Wrote interface to " ++ path⟩
  if client.usesTables then
    Task.print [.text tablesNote]
  Task.print (timed "✓ Done in " ("s, `" ++ out ++ "` should now be available in your project"))
  return client.usesTables

def link [CharacterNames] (root component : Text) : Task CommandFailure Text := do
  return (← loadBinding root component).entry

def install (host : Host) (npm directory : Text) : Task CommandFailure Unit := do
  Task.print [.text "Installing required dependencies...\n"]
  let i : Invocation :=
    { directory
      program := npm
      args := "install".toList :: "--save-dev".toList :: Scaffold.packages
      input := []
      limit := none }
  let (outcome, tree) := host.run i (← Task.tree)
  Task.setTree tree
  match outcome with
  | .exited 0 _ => return
  | .exited status _ => throw (.npmFailed status)
  | .notStarted fault => throw (.during (.running npm) (.os fault))
  | .timedOut => return

def packageManager (host : Host) (installs : Bool) : Except CommandFailure (Option Text) :=
  if !installs then .ok none
  else match host.npm with
    | some npm => .ok (some npm)
    | none => .error .npmMissing

def nextSteps (directory : Text) : Text :=
  "s.\nYou can now run the following to get started:\n\n    cd " ++ directory
    ++ "\n    spylt interface\n    spylt build\n    python3 main.py"

def new (host : Host) (directory : Text) (installs : Bool) : Task CommandFailure Unit := do
  if (← Task.tree).exists? directory then
    throw (.failure (.fileExists directory))
  let npm ← Task.ofExcept (packageManager host installs)
  for (path, contents) in Scaffold.files ((Path.fileName? directory).getD []) do
    writeOutput (Path.join directory path) contents
    Task.report ⟨.debug, "Wrote " ++ path⟩
  if let some npm := npm then
    install host npm directory
  Task.print (timed ("✓ Project " ++ directory ++ " scaffolded in ") (nextSteps directory))

end Pagewright.Command
