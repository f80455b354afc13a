import Pagewright.Client
import Pagewright.Json.Basic
import Pagewright.Proofs.Lexing.Lexeme

namespace Pagewright.Wire

open Syntax

mutual

inductive Script where
  | name (id : Text)
  | text (t : Text)
  | template (t : Template)
  | member (object : Script) (name : Text)
  | call (callee arg : Script)
  | arrow (param : Text) (body : Script)

/-- What stands between backticks: text with holes for expressions. -/
inductive Template where
  | last (t : Text)
  | hole (before : Text) (e : Script) (later : Template)

end

def Template.push (c : Char) : Template → Template
  | .last t => .last (c :: t)
  | .hole before e later => .hole (c :: before) e later

/-- What stands before a character that must follow, and what follows it. -/
def upTo (c : Char) (t : Text) : Option (Text × Text) :=
  match t.dropWhile (· ≠ c) with
  | [] => none
  | _ :: rest => some (t.takeWhile (· ≠ c), rest)

def afterMark (mark : Text) (t : Text) : Option Text :=
  mark.isPrefixOf? t

def word? (t : Text) : Option (Text × Text) :=
  if t.head?.any Identifier.isStart then
    some (t.takeWhile Identifier.isPart, t.dropWhile Identifier.isPart)
  else none

def reservedWords : List Text :=
  ["arguments", "await", "break", "case", "catch", "class", "const", "continue", "debugger",
   "default", "delete", "do", "else", "enum", "eval", "export", "extends", "false", "finally",
   "for", "function", "if", "implements", "import", "in", "instanceof", "interface", "let", "new",
   "null", "package", "private", "protected", "public", "return", "static", "super", "switch",
   "this", "throw", "true", "try", "typeof", "var", "void", "while", "with", "yield"]

mutual

def readScript : Nat → Text → Option (Script × Text)
  | 0, _ => none
  | n + 1, '`' :: t => do
    let (p, t) ← readTemplate n t
    readTrailers n (.template p) t
  | n + 1, '\'' :: t => do
    let (s, t) ← upTo '\'' t
    readTrailers n (.text s) t
  | n + 1, '(' :: t => do
    let (param, t) ← word? t
    let t ← afterMark ") => " t
    let (body, t) ← readScript n t
    return (.arrow param body, t)
  | n + 1, t => do
    let (id, t) ← word? t
    if reservedWords.contains id then none else readTrailers n (.name id) t

def readTrailers : Nat → Script → Text → Option (Script × Text)
  | 0, _, _ => none
  | n + 1, e, '.' :: t => do
    let (name, t) ← word? t
    readTrailers n (.member e name) t
  | n + 1, e, '(' :: t => do
    let (arg, t) ← readScript n t
    let t ← afterMark ")" t
    readTrailers n (.call e arg) t
  | _ + 1, e, t => some (e, t)

/-- A template up to its closing backtick, which is passed over. -/
def readTemplate : Nat → Text → Option (Template × Text)
  | 0, _ => none
  | _ + 1, [] => none
  | _ + 1, '`' :: t => some (.last [], t)
  | _ + 1, '\\' :: _ => none
  | n + 1, '$' :: '\x7b' :: t => do
    let (e, t) ← readScript n t
    let t ← afterMark "\x7d" t
    let (later, t) ← readTemplate n t
    return (.hole [] e later, t)
  | n + 1, c :: t => do
    let (p, t) ← readTemplate n t
    return (p.push c, t)

end

inductive Sent where
  | text (t : Text)
  | number (n : Int)
  | bool (b : Bool)
  | texts (ts : List Text)
  | table (value : Json)

namespace Sent

/-- The text that a value becomes where a text is needed. Numbers are written in decimal as long
as they are held exactly; a table has no text of its own. -/
def written : Sent → Option Text
  | .text t => some t
  | .number n => if n.natAbs ≤ Nat.pow 2 53 then some (Text.ofInt n) else none
  | .bool b => some (if b then "true" else "false")
  | .texts ts => some (Text.join [','] ts)
  | .table _ => none

/-- The values that a wire type stands for. -/
def HasType : Sent → WireType → Prop
  | .text _, .string => True
  | .number n, .integer => n.natAbs ≤ Nat.pow 2 53
  | .bool _, .boolean => True
  | .texts _, .list => True
  | .table _, .table => True
  | _, _ => False

end Sent

/-- What the browser brings along: how it escapes a part of an address and writes JSON. -/
structure Browser where
  escape : Text → Text
  stringify : Json → Text

def Script.isGlobal (global : Text) (vars : List (Text × Sent)) : Script → Bool
  | .name id => id = global && (vars.lookup id).isNone
  | _ => false

def Sent.mapped (f : Text → Option Sent) : Option Sent → Option Sent
  | some (.texts ts) => (ts.mapM fun t => (f t).bind Sent.written).map .texts
  | _ => none

def Sent.joined : Option Sent → Option Sent → Option Sent
  | some (.texts ts), some (.text sep) => some (.text (Text.join sep ts))
  | _, _ => none

def Browser.stringified (w : Browser) : Option Sent → Option Sent
  | some (.table value) => some (.text (w.stringify value))
  | _ => none

mutual

def Script.eval (w : Browser) : Script → List (Text × Sent) → Option Sent
  | .name id, vars => vars.lookup id
  | .text t, _ => some (.text t)
  | .template t, vars => (t.eval w vars).map .text
  | .call (.name f) arg, vars =>
    if (Script.name f).isGlobal "encodeURIComponent" vars then
      ((arg.eval w vars).bind Sent.written).map fun t => .text (w.escape t)
    else none
  | .call (.member object method) (.arrow param body), vars =>
    if method = "map" then
      Sent.mapped (fun t => body.eval w ((param, .text t) :: vars)) (object.eval w vars)
    else none
  | .call (.member object method) arg, vars =>
    if object.isGlobal "JSON" vars ∧ method = "stringify" then w.stringified (arg.eval w vars)
    else if method = "join" then Sent.joined (object.eval w vars) (arg.eval w vars)
    else none
  | _, _ => none

def Template.eval (w : Browser) : Template → List (Text × Sent) → Option Text
  | .last t, _ => some t
  | .hole before e later, vars => do
    let t ← (e.eval w vars).bind Sent.written
    return before ++ t ++ (← later.eval w vars)

end

def address? (w : Browser) (r : Route) (vars : List (Text × Sent)) : Option Text :=
  let t := '`' :: Client.address r ++ ['`']
  match readScript (2 * t.length) t with
  | some (.template p, []) => p.eval w vars
  | _ => none

end Pagewright.Wire
