import Pagewright.Syntax.Tree
import Pagewright.Text.Blank

namespace Pagewright.Docstring

open Syntax

def clean (t : Text) : Text :=
  Text.trim (Text.join ['\n'] ((Text.lines t).map Text.trim))

def ofBody? : List Stmt → Option Text
  | .expr _ (.constant _ (.text t)) :: _ => some (clean t)
  | _ => none

end Pagewright.Docstring
