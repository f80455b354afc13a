import Pagewright.Failure

namespace Pagewright.Route

/-- There must be a route, and every parameter must have a wire type. -/
def validate (routes : List Route) : Except Failure Unit :=
  if routes.isEmpty then .error .noRoutes
  else match routes.find? (fun r => !r.unresolved.isEmpty) with
    | some r => .error (.untyped r.name (r.params.map (·.name)))
    | none => .ok ()

end Pagewright.Route
