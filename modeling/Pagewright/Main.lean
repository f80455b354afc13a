import Pagewright.CommandLine
import Pagewright.Host.Standard

namespace Pagewright

def leftAlone : List String :=
  ["node_modules", ".git"]

def pathOf (place : Location) : String :=
  String.ofList (Text.join ['/'] (['.'] :: place))

partial def readEntries (place : Location) : IO (List (Location × Node)) := do
  let top ← IO.currentDir
  let names := (← (top / pathOf place).readDir).toList.map (·.fileName)
  let entries ← (names.filter (!leftAlone.contains ·)).mapM fun name => do
    let inner := place ++ [name.toList]
    try
      let below ← readEntries inner
      pure ((inner, Node.directory) :: below)
    catch _ =>
      pure [(inner, Node.file (← IO.FS.readBinFile (pathOf inner)))]
  return entries.flatten

def writeEntry (e : Location × Node) : IO Unit := do
  match e.2 with
  | .directory => IO.FS.createDirAll (pathOf e.1)
  | .file content => IO.FS.writeBinFile (pathOf e.1) content

def removeEntry (e : Location × Node) : IO Unit := do
  match e.2 with
  | .directory => IO.FS.removeDir (pathOf e.1)
  | .file _ => IO.FS.removeFile (pathOf e.1)

def environmentText (name : String) : IO (Option Text) := do
  return (← IO.getEnv name).map String.toList

def secondsOf (hundredths : Nat) : Text :=
  let places := Text.ofNat (hundredths % 100)
  Text.ofNat (hundredths / 100) ++ '.' :: List.replicate (2 - places.length) '0' ++ places

end Pagewright

open Pagewright in
def main (args : List String) : IO UInt32 := do
  let started ← IO.monoMsNow
  let home := (Path.names (← IO.currentDir).toString.toList).filter (!·.isEmpty)
  let tree : FileTree := ⟨home, ← readEntries []⟩
  let env : Environment := ⟨← environmentText "SPYLT_COMPONENT",
    ← environmentText "SPYLT_BUNDLER", ← environmentText "SPYLT_BUNDLE_TIMEOUT"⟩
  let (ending, world) :=
    CommandLine.run Host.standard env (args.map String.toList) (World.ofTree tree)
  for e in (world.tree.removedSince tree).reverse do
    removeEntry e
  for e in world.tree.changedSince tree do
    writeEntry e
  let elapsed := ((← IO.monoMsNow) - started) / 10
  (← IO.getStdout).putStr (String.ofList (Printed.render (secondsOf elapsed) world.printed))
  let shown := ((CommandLine.invocation (args.map String.toList)).toOption.map (·.shown)).getD []
  for e in world.events.filter (shown.contains ·.level) do
    (← IO.getStderr).putStrLn (String.ofList e.text)
  for complaint in ending.complaint?.toList do
    (← IO.getStderr).putStr (String.ofList complaint)
  return UInt32.ofNat ending.status
