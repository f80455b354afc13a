import Pagewright.Entry
import Pagewright.Number.Reading
import Pagewright.Source

namespace Pagewright

open Syntax

structure Binding where
  component : Text
  backend : Text
  props : List (Text × Json)
  routes : List Text

namespace Binding

def new (component backend : Text) : Binding :=
  ⟨component, backend, [], []⟩

def setEntry (key : Text) (value : Json) : List (Text × Json) → List (Text × Json)
  | [] => [(key, value)]
  | (k, v) :: es => if k = key then (k, value) :: es else (k, v) :: setEntry key value es

def addProp (b : Binding) (key : Text) (value : Json) : Binding :=
  { b with props := setEntry key value b.props }

def addProps (b : Binding) (props : List (Text × Json)) : Binding :=
  props.foldl (fun b (k, v) => b.addProp k v) b

def addRoute (b : Binding) (name : Text) : Binding :=
  if b.routes.contains name then b else { b with routes := b.routes ++ [name] }

def addRoutes (b : Binding) (names : List Text) : Binding :=
  names.foldl addRoute b

def entry (b : Binding) : Text :=
  Entry.render b.component b.props

def entryKey? : Option Expr → Option Text
  | some (.constant _ (.text key)) => some key
  | _ => none

def constantValue (written : Text) : Constant → Except PropFault Json
  | .none => .ok .null
  | .bool b => .ok (.bool b)
  | .text t => .ok (.string t)
  | .float (.finite n m s) => .ok (.real (.finite n m s))
  | .float x => .error (.notFinite (Number.double.render Number.positional x))
  | .int _ =>
    match Number.json? written with
    | some v => .ok v
    | none => .error (.number written)
  | _ => .error (.literal written)

mutual

/-- The JSON value of a literal expression. Numbers are read from what is written, so that a
sign before a number belongs to it. -/
def literal (source : Source) : Expr → Except PropFault Json
  | .constant span c => constantValue (source.slice span) c
  | .unary span _ _ =>
    match Number.json? (source.slice span) with
    | some v => .ok v
    | none => .error (.number (source.slice span))
  | .list _ items => (literals source items).map .array
  | .tuple _ items => (literals source items).map .array
  | .dict _ entries => (literalEntries source entries []).map .object
  | e => .error (.expression (source.slice e.span))

def literals (source : Source) : List Expr → Except PropFault (List Json)
  | [] => .ok []
  | e :: es => do
    let v ← literal source e
    let vs ← literals source es
    return v :: vs

def literalEntries (source : Source) :
    List (Option Expr × Expr) → List (Text × Json) → Except PropFault (List (Text × Json))
  | [], found => .ok found
  | (key, value) :: rest, found =>
    match entryKey? key with
    | none => .error .entryKey
    | some key => do
      let v ← literal source value
      literalEntries source rest (setEntry key v found)

end

def isName (name : Text) : Expr → Bool
  | .name _ id => id = name
  | _ => false

def nameOf? : Expr → Option Text
  | .name _ id => some id
  | _ => none

def calleeName? : Expr → Option Text
  | .name _ id => some id
  | .attribute _ _ name => some name
  | _ => none

def methodOn? (binding : Text) : Expr → Option Text
  | .attribute _ value name => if isName binding value then some name else none
  | _ => none

def requiredComponent? : Expr → Option Text
  | .call _ callee (.constant _ (.text path) :: _) _ =>
    if calleeName? callee = some "require_svelte" then some path else none
  | _ => none

def registrars : List Text :=
  ["interop", "interopable"]

def registers (binding : Text) : Expr → Bool
  | .name _ id => id = binding
  | .attribute s value name => methodOn? binding (.attribute s value name) = some "backend"
  | .call _ callee args _ =>
    methodOn? binding callee = some "backend"
      || ((calleeName? callee).any registrars.contains && args.head?.any (isName binding))
  | _ => false

def prop (source : Source) (k : KeywordArg Expr) : Except Failure (Text × Json) :=
  match k.name with
  | none => .error (.badProp "**" .notKeyword)
  | some key =>
    match literal source k.value with
    | .ok v => .ok (key, v)
    | .error fault => .error (.badProp key fault)

/-- What a file says about a binding: the component it was last bound to, and its props and
functions in the order of the file. -/
structure Registrations where
  component : Option Text
  props : List (Text × Json)
  routes : List Text

def scan (source : Source) (binding : Text) (r : Registrations) :
    Stmt → Except Failure Registrations
  | .function _ head _ =>
    if head.decorators.any (registers binding) then
      .ok { r with routes := r.routes ++ [head.name] }
    else .ok r
  | .assign _ targets value =>
    match requiredComponent? value with
    | some path =>
      if targets.any (isName binding) then .ok { r with component := some path } else .ok r
    | none => .ok r
  | .expr _ (.call _ callee args keywords) =>
    if methodOn? binding callee = some "add_props" then do
      let props ← keywords.mapM (prop source)
      return { r with props := r.props ++ props }
    else if methodOn? binding callee = some "set_apis" || isName binding callee then
      .ok { r with routes := r.routes ++ args.filterMap nameOf? }
    else .ok r
  | _ => .ok r

def registrations (source : Source) (binding : Text) : Except Failure Registrations :=
  source.body.foldlM (scan source binding) ⟨none, [], []⟩

def ofSource (source : Source) (binding : Text) : Except Failure Binding := do
  let r ← registrations source binding
  match r.component with
  | none => throw (.bindingNotFound binding source.path)
  | some component =>
    return ((new component source.path).addProps r.props).addRoutes r.routes

end Binding
end Pagewright
