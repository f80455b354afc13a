import Pagewright.Text.Basic

namespace Pagewright

inductive OsFault where
  | notFound
  | denied
  | alreadyExists
  | notADirectory
  | isADirectory
  | notEmpty
  | notExecutable
  | notText
  deriving DecidableEq, Repr

def OsFault.phrase : OsFault → Text
  | .notFound => "No such file or directory"
  | .denied => "Permission denied"
  | .alreadyExists => "File exists"
  | .notADirectory => "Not a directory"
  | .isADirectory => "Is a directory"
  | .notEmpty => "Directory not empty"
  | .notExecutable => "Exec format error"
  | .notText => "stream did not contain valid UTF-8"

/-- The number of a fault. Malformed text is no fault of the system and has none. -/
def OsFault.code? : OsFault → Option Nat
  | .notFound => some 2
  | .denied => some 13
  | .alreadyExists => some 17
  | .notADirectory => some 20
  | .isADirectory => some 21
  | .notEmpty => some 39
  | .notExecutable => some 8
  | .notText => none

def OsFault.message (fault : OsFault) : Text :=
  match fault.code? with
  | some n => fault.phrase ++ " (os error ".toList ++ Text.ofNat n ++ [')']
  | none => fault.phrase

end Pagewright
