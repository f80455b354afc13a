import Pagewright.Source
import Pagewright.Text.Order

namespace Pagewright.Imports

open Syntax

def localRoots : List Text :=
  ["spylt", "src", "__future__"]

def isLocal (module : Text) : Bool :=
  localRoots.contains (module.takeWhile (· ≠ '.'))

/-- Whether a `from` import is written with a dot after its first word. -/
def isRelative (text : Text) : Bool :=
  match "from".toList.isPrefixOf? text with
  | some rest => (Text.trimLeft rest).head? = some '.'
  | none => false

def plain? (source : Source) : Stmt → Option Text
  | .importNames span names =>
    if names.any (fun a => isLocal a.name) then none else some (Text.trim (source.slice span))
  | _ => none

def from? (source : Source) : Stmt → Option Text
  | .importFrom span module _ _ =>
    let text := Text.trim (source.slice span)
    if isRelative text || isLocal (module.getD []) then none else some text
  | _ => none

/-- The forwarded imports: plain ones first, each kind sorted and without repetition. -/
def forwarded (source : Source) : List Text :=
  Text.sortedSet (source.body.filterMap (plain? source))
    ++ Text.sortedSet (source.body.filterMap (from? source))

end Pagewright.Imports
