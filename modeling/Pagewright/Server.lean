import Pagewright.Route.Validity

namespace Pagewright

namespace Server

def decode (p : Param) : Text :=
  let key := p.name
  match p.wireType, p.fallback with
  | some .list, some d => "request.args.getlist('" ++ key ++ "') or " ++ d
  | some .list, none => "request.args.getlist('" ++ key ++ "')"
  | some .table, some d =>
    "_pd.DataFrame(_json.loads(request.args['" ++ key ++ "'])) if '" ++ key
      ++ "' in request.args else " ++ d
  | some .table, none => "_pd.DataFrame(_json.loads(request.args.get('" ++ key ++ "', '[]')))"
  | ty, fallback =>
    let cast : Text := match ty with
      | some .integer => "int"
      | some .boolean => "_as_bool"
      | _ => "str"
    match fallback with
    | some d => "request.args.get('" ++ key ++ "', default=" ++ d ++ ", type=" ++ cast ++ ")"
    | none => "request.args.get('" ++ key ++ "', type=" ++ cast ++ ")"

def prologueLine (indent : Text) (p : Param) : Text :=
  indent ++ p.name ++ " = " ++ decode p ++ "\n"

/-- The lines of a handler after its prologue; a body without lines answers with no value. -/
def bodyText (r : Route) : Text :=
  if r.body.isEmpty then r.indent ++ "return \x7b\"response\": None\x7d\n" else r.body.flatten

def handler (r : Route) : Text :=
  "@app.route(\"/api/" ++ r.name ++ "\")\nasync def " ++ r.name ++ "():\n"
    ++ r.params.flatMap (prologueLine r.indent) ++ bodyText r

def importLines (imports : List Text) (tables : Bool) : Text :=
  imports.flatMap (· ++ ['\n'])
    ++ "from quart import Quart, request\nfrom quart_cors import cors\n"
    ++ (if tables then "import json as _json\nimport pandas as _pd\n".toList else [])

/-- The application object, the reader of truth values if one is needed, and the page itself. -/
def bootstrap (booleans : Bool) : Text :=
  "
app = Quart(__name__)
app = cors(app, allow_origin=\"*\")
" ++ (if booleans then "

def _as_bool(value):
    return value.lower() in (\"1\", \"true\", \"yes\", \"on\")
".toList else []) ++ "

@app.route(\"/\")
async def root_():
    with open(\"index.html\", encoding=\"utf-8\") as fh:
        return fh.read()
"

def footer : Text := "\n\napp.run()\n"

def render (routes : List Route) (imports : List Text) : Text :=
  importLines imports (routes.any (·.takes .table)) ++ bootstrap (routes.any (·.takes .boolean))
    ++ routes.flatMap (fun r => '\n' :: '\n' :: handler r) ++ footer

def generate (routes : List Route) (imports : List Text) : Except Failure Text := do
  Route.validate routes
  return render routes imports

end Server
end Pagewright
