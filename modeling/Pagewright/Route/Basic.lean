import Pagewright.Text.Blank

namespace Pagewright

inductive WireType where
  | string
  | integer
  | boolean
  | list
  | table
  deriving DecidableEq, Repr

/-- A parameter of a backend function. The type hint and the default are kept as written. -/
structure Param where
  name : Text
  typeHint : Option Text
  wireType : Option WireType
  fallback : Option Text
  deriving DecidableEq, Repr

/-- A backend function that answers requests. The body lines already answer with a response
record wherever the function returns. -/
structure Route where
  name : Text
  params : List Param
  returnType : Option WireType
  docstring : Option Text
  body : List Text
  deriving DecidableEq, Repr

namespace Route

def standardIndent : Text := "    "

def indent (r : Route) : Text :=
  match r.body.find? (fun line => !Text.isAllBlank line) with
  | none => standardIndent
  | some line =>
    match line.takeWhile Text.isBlank with
    | [] => standardIndent
    | own => own

def unresolved (r : Route) : List Param :=
  r.params.filter (·.wireType.isNone)

def takes (r : Route) (ty : WireType) : Bool :=
  r.params.any (·.wireType = some ty)

end Route
end Pagewright
