import Pagewright.Number.Reading
import Pagewright.Proofs.Grammar.Bare
import Pagewright.Proofs.Wire.Query
import Pagewright.Syntax.Statement

namespace Pagewright.Wire

open Syntax

/-- What a variable of a handler holds. An object of the program's own is known by a number and
by whether it counts as true. -/
inductive Value where
  | none
  | bool (value : Bool)
  | int (value : Int)
  | text (value : Text)
  | texts (values : List Text)
  | json (value : Json)
  | frame (value : Json)
  | other (id : Nat) (truth : Bool)

/-- Whether a value counts as true; a data frame refuses to tell. -/
def Value.truth? : Value → Option Bool
  | .none => some false
  | .bool b => some b
  | .int n => some (n ≠ 0)
  | .text t => some !t.isEmpty
  | .texts ts => some !ts.isEmpty
  | .json (.object es) => some !es.isEmpty
  | .json (.array vs) => some !vs.isEmpty
  | .json (.string t) => some !t.isEmpty
  | .json (.bool b) => some b
  | .json (.int n) => some (n ≠ 0)
  | .json (.real x) => some (x ≠ .finite false 0 0 ∧ x ≠ .finite true 0 0)
  | .json .null => some false
  | .frame _ => Option.none
  | .other _ truth => some truth

/-- The whole number that a text denotes: blanks around it, a sign, and digits in groups. -/
def int? (t : Text) : Option Int :=
  let (negative, digits) := Number.readSign (Text.trim t)
  let groups := Text.pieces '_' digits
  if groups.all fun g => !g.isEmpty && g.all Char.isDigit then
    let n : Int := Number.ofDigits groups.flatten
    some (if negative then -n else n)
  else none

def truthWords? : Option (List Text) :=
  match parse (Server.bootstrap true) with
  | .ok body => body.findSome? fun
    | .function _ head [.return _ (some (.compare _ (.call _ (.attribute _ (.name _ v) m) [] [])
        [(.member, .tuple _ words)]))] =>
      if head.name = "_as_bool" ∧ head.params.single.map (·.name) = [v] ∧ m = "lower" then
        words.mapM fun
          | .constant _ (.text t) => some t
          | _ => none
      else none
    | _ => none
  | .error _ => none

/-- The truth value that a text stands for. Lower case matters to letters without accents only. -/
def asBool? (t : Text) : Option Bool :=
  truthWords?.map (·.contains (t.map Char.toLower))

theorem truthWords?_eq :
    truthWords? = some ["1".toList, "true".toList, "yes".toList, "on".toList] := by
  decide +kernel

/-- A truth value is cast back from the text that a script writes for it. -/
theorem asBool?_written (b : Bool) : asBool? (if b then "true" else "false") = some b := by
  rw [asBool?, truthWords?_eq]
  cases b <;> rfl

abbrev Locals := List (Text × Value)

/-- A handler that answers a request: the query, the names that it sets itself, and what the rest
of the program makes of JSON and of every expression that is not about the query. -/
structure Handler where
  query : List (Text × Text)
  assigned : List Text
  loads : Text → Option Json
  own : Expr → Locals → Option (Value × Locals)

namespace Handler

variable (h : Handler)

def isGlobal (global : Text) : Expr → Bool
  | .name _ id => id = global && !h.assigned.contains id
  | _ => false

def isQuery : Expr → Bool
  | .attribute _ object name => h.isGlobal "request" object && name = "args"
  | _ => false

/-- What an expression makes of a text when it is given as the type of a read. -/
def cast? [CharacterNames] (e : Expr) : Option (Text → Option Value) :=
  if h.isGlobal "str" e then some fun t => some (.text t)
  else if h.isGlobal "int" e then some fun t => (int? t).map .int
  else if h.isGlobal "_as_bool" e then some fun t => (asBool? t).map .bool
  else none

/-- The first text under a key after a cast. The default stands in for a key that is missing and
for a text that the cast refuses. -/
def read (key : Text) (fallback : Value) (cast : Text → Option Value) : Value :=
  match (values key h.query).head? with
  | some t => (cast t).getD fallback
  | none => fallback

def castOf? [CharacterNames] (keywords : List (KeywordArg Expr)) : Option (Text → Option Value) :=
  match keywords.find? (·.name = some "type".toList) with
  | some type => h.cast? type.value
  | none => some (some ∘ .text)

mutual

def eval [CharacterNames] : Expr → Locals → Option (Value × Locals)
  | .name s id, vars =>
    if h.assigned.contains id then (vars.lookup id).map fun v => (v, vars) else h.own (.name s id) vars
  | .constant _ (.text t), vars => some (.text t, vars)
  | .boolean _ .disjunction values, vars => evalFirst values vars
  | .conditional _ test body orelse, vars => do
    let (v, vars) ← eval test vars
    if ← v.truth? then eval body vars else eval orelse vars
  | .compare s left [(.member, right)], vars =>
    if h.isQuery right then do
      let (.text key, vars) ← eval left vars | none
      some (.bool !(values key h.query).isEmpty, vars)
    else h.own (.compare s left [(.member, right)]) vars
  | .subscript s object index, vars =>
    if h.isQuery object then do
      let (.text key, vars) ← eval index vars | none
      let t ← (values key h.query).head?
      some (.text t, vars)
    else h.own (.subscript s object index) vars
  | .call s (.attribute s' object method) [arg] keywords, vars =>
    if h.isQuery object ∧ method = "getlist" ∧ keywords.isEmpty then do
      let (.text key, vars) ← eval arg vars | none
      some (.texts (values key h.query), vars)
    else if h.isGlobal "_json" object ∧ method = "loads" ∧ keywords.isEmpty then do
      let (.text t, vars) ← eval arg vars | none
      let value ← h.loads t
      some (.json value, vars)
    else if h.isGlobal "_pd" object ∧ method = "DataFrame" ∧ keywords.isEmpty then do
      let (.json value, vars) ← eval arg vars | none
      some (.frame value, vars)
    else if h.isQuery object ∧ method = "get" then do
      let (.text key, vars) ← eval arg vars | none
      let (v, vars) ← evalDefault keywords vars
      let cast ← h.castOf? keywords
      some (h.read key v cast, vars)
    else h.own (.call s (.attribute s' object method) [arg] keywords) vars
  | .call s (.attribute s' object method) [arg, fallback] keywords, vars =>
    if h.isQuery object ∧ method = "get" ∧ keywords.isEmpty then do
      let (.text key, vars) ← eval arg vars | none
      let (v, vars) ← eval fallback vars
      some (h.read key v (some ∘ .text), vars)
    else h.own (.call s (.attribute s' object method) [arg, fallback] keywords) vars
  | e, vars => h.own e vars

/-- The first of some values that counts as true, or else the last. -/
def evalFirst [CharacterNames] : List Expr → Locals → Option (Value × Locals)
  | [], _ => none
  | [e], vars => eval e vars
  | e :: later, vars => do
    let (v, vars) ← eval e vars
    if ← v.truth? then some (v, vars) else evalFirst later vars

def evalDefault [CharacterNames] : List (KeywordArg Expr) → Locals → Option (Value × Locals)
  | [], vars => some (.none, vars)
  | ⟨name, value⟩ :: later, vars =>
    if name = some "default".toList then eval value vars else evalDefault later vars

end

def evalText [CharacterNames] (t : Text) (vars : Locals) : Option (Value × Locals) :=
  match parse t with
  | .ok [.expr _ e] => h.eval e.bare vars
  | _ => none

def prologue [CharacterNames] : List Param → Locals → Option Locals
  | [], vars => some vars
  | p :: ps, vars => do
    let (v, vars) ← h.evalText (Server.decode p) vars
    prologue ps ((p.name, v) :: vars)

end Handler
end Pagewright.Wire
