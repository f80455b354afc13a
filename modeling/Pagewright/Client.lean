import Pagewright.Route.TypeHint
import Pagewright.Server

namespace Pagewright

structure Client where
  source : Text
  usesTables : Bool
  deriving DecidableEq, Repr

namespace Client

def queryPart (p : Param) : Text :=
  let name := p.name
  match p.wireType with
  | some .list =>
    "$\x7b" ++ name ++ ".map((v) => `" ++ name
      ++ "=$\x7bencodeURIComponent(v)\x7d`).join('&')\x7d"
  | some .table => name ++ "=$\x7bencodeURIComponent(JSON.stringify(" ++ name ++ "))\x7d"
  | _ => name ++ "=$\x7bencodeURIComponent(" ++ name ++ ")\x7d"

def address (r : Route) : Text :=
  let query := r.params.map queryPart
  if query.isEmpty then "/api/" ++ r.name
  else "/api/" ++ r.name ++ "?" ++ Text.join "&" query

def typeName (ty : Option WireType) : Text :=
  match ty with
  | some ty => ty.scriptName
  | none => "any"

def docLine (line : Text) : Text :=
  if line.isEmpty then " *\n" else " * " ++ Text.replace line "*/" "*\\/" ++ "\n"

def paramLine (p : Param) : Text :=
  " * @param \x7b" ++ typeName p.wireType ++ "\x7d " ++ p.name ++ "\n"

/-- The documentation of a function: its docstring or else its name, parameters, result. -/
def docBlock (r : Route) : Text :=
  "/**\n" ++ (Text.lines (r.docstring.getD r.name)).flatMap docLine
    ++ r.params.flatMap paramLine
    ++ " * @returns \x7b" ++ typeName r.returnType ++ "\x7d\n */\n"

def function (r : Route) : Text :=
  docBlock r ++ "export function " ++ r.name ++ "(" ++ Text.join ", " (r.params.map (·.name))
    ++ ") \x7b\n    const res = fetchSync(`" ++ address r
    ++ "`)\n    return res.response\n\x7d"

def render (routes : List Route) : Client where
  source := Text.join "\n\n" (routes.map function) ++ "\n"
  usesTables := routes.any fun r => r.returnType = some .table || r.takes .table

def generate (routes : List Route) : Except Failure Client := do
  Route.validate routes
  return render routes

end Client
end Pagewright
