import Pagewright.Host.Shell

namespace Pagewright.Host

def npmPath : Text :=
  "/usr/local/bin/npm"

def start (i : Invocation) (tree : FileTree) : Process :=
  ⟨i.program, tree, i.directory, Text.encode i.input, .empty, .empty, 0, 0, i.limit⟩

def ended (p : Process) : Outcome × FileTree :=
  (if p.isExpired then .timedOut else .exited p.status p.errors, p.tree)

def runShell (hasUtilities : Bool) (args : List Text) (p : Process) : Process :=
  match Shell.job args p with
  | .ok (job, p) => Shell.runScript hasUtilities Shell.maxDepth job p
  | .error complain => complain p

def runUtility (hasUtilities : Bool) (i : Invocation) (tree : FileTree) :
    Outcome × FileTree :=
  let p := start i tree
  match Shell.utilityName? hasUtilities i.program with
  | none => (.notStarted (Shell.startFault p i.program), tree)
  | some name =>
    if name = "sh".toList then ended (runShell hasUtilities i.args p)
    else match Utility.named? name with
      | some run => ended (run i.args p)
      | none => (.notStarted .notFound, tree)

def standard : Host where
  npm := none
  run i tree :=
    if tree.isDirectory i.directory then runUtility true i tree
    else (.notStarted .notFound, tree)

def withNpm (script : Text) : Host where
  npm := some npmPath
  run i tree :=
    if !tree.isDirectory i.directory then (.notStarted .notFound, tree)
    else if i.program = npmPath then
      ended (Shell.runScript false Shell.maxDepth ⟨npmPath, script, i.args, [], false⟩ (start i tree))
    else runUtility false i tree

def bare : Host where
  npm := none
  run i tree :=
    if tree.isDirectory i.directory then runUtility false i tree
    else (.notStarted .notFound, tree)

end Pagewright.Host
