import Pagewright.Files.Tree

namespace Pagewright

structure Invocation where
  directory : Text
  program : Text
  args : List Text
  input : Text
  limit : Option Nat

inductive Outcome where
  | notStarted (fault : OsFault)
  | timedOut
  | exited (status : Nat) (errors : ByteArray)
  deriving DecidableEq

/-- What runs other programs: any function from an invocation and the files to an outcome and the
files that it leaves. -/
structure Host where
  /-- The path of the package manager, if it is installed. -/
  npm : Option Text
  run : Invocation → FileTree → Outcome × FileTree

end Pagewright
