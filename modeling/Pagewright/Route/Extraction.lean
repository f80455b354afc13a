import Pagewright.Route.Docstring
import Pagewright.Route.Imports
import Pagewright.Route.Returns
import Pagewright.Route.TypeHint
import Pagewright.Route.Validity

namespace Pagewright

open Syntax

structure Extraction where
  routes : List Route
  imports : List Text
  deriving DecidableEq, Repr

namespace Definition

def param (source : Source) (p : Parameter Expr) : Param :=
  let hint := p.hint.map fun e => source.slice e.span
  ⟨p.name, hint, hint.bind WireType.ofHint?, p.fallback.map fun e => source.slice e.span⟩

/-- The route of a function. Parameters that collect several arguments are left out. -/
def route (source : Source) (d : Definition) : Route :=
  let returnType := d.head.returns.bind fun e => WireType.ofHint? (source.slice e.span)
  { name := d.name
    params := d.head.params.single.map (param source)
    returnType
    docstring := Docstring.ofBody? d.body
    body := Route.bodyLines source returnType d.body }

def skippedEvent (d : Definition) (stars name : Text) : Event :=
  ⟨.warn, d.name ++ "(): " ++ stars ++ name
    ++ " cannot be read from a querystring and is skipped"⟩

/-- The events of describing a function: the parameters left out and the returns rewritten. -/
def routeEvents (d : Definition) : List Event :=
  (d.head.params.variadic.toList.map fun p => d.skippedEvent ['*'] p.name)
    ++ (d.head.params.variadicKeyword.toList.map fun p => d.skippedEvent ['*', '*'] p.name)
    ++ [⟨.debug, d.name ++ "(): rewrote " ++ Text.ofNat (ownedReturnsOf d.body).length
      ++ " return(s)"⟩]

end Definition

namespace Extraction

def routeOf (source : Source) (name : Text) : Except Failure Route :=
  match source.definition? name with
  | some d => .ok (d.route source)
  | none => .error (.functionNotFound name)

def ofSource (source : Source) (names : List Text) : Except Failure Extraction := do
  let routes ← names.mapM (routeOf source)
  Route.validate routes
  return ⟨routes, Imports.forwarded source⟩

def doneEvent (source : Source) (e : Extraction) : Event :=
  ⟨.info, "Extracted " ++ Text.ofNat e.routes.length ++ " route(s) and "
    ++ Text.ofNat e.imports.length ++ " import(s) from " ++ source.path⟩

/-- The events of an extraction: those of each function up to the first unknown one. -/
def events (source : Source) (names : List Text) : List Event :=
  let found := (names.map source.definition?).takeWhile Option.isSome
  let described := found.flatMap fun d => (d.map (·.routeEvents)).getD []
  match ofSource source names with
  | .ok e => described ++ [doneEvent source e]
  | .error _ => described

end Extraction
end Pagewright
