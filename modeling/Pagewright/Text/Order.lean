import Pagewright.Text.Basic

namespace Pagewright.Text

def before : Text → Text → Bool
  | [], [] => false
  | [], _ :: _ => true
  | _ :: _, [] => false
  | a :: as, b :: bs => if a = b then before as bs else a.toNat < b.toNat

def insertSorted (t : Text) : List Text → List Text
  | [] => [t]
  | u :: us =>
    if t = u then u :: us
    else if before t u then t :: u :: us
    else u :: insertSorted t us

def sortedSet (ts : List Text) : List Text :=
  ts.foldr insertSorted []

end Pagewright.Text
