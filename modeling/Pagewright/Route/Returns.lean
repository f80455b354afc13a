import Pagewright.Route.Basic
import Pagewright.Source

namespace Pagewright

open Syntax

structure Return where
  span : Span
  value : Option Expr

mutual

/-- The returns of a statement that belong to the function around it. Nested functions and
classes keep theirs. -/
def ownedReturns : Stmt → List Return
  | .return span value => [⟨span, value⟩]
  | .branch _ _ body orelse => ownedReturnsOf body ++ ownedReturnsOf orelse
  | .forLoop _ _ _ _ body orelse => ownedReturnsOf body ++ ownedReturnsOf orelse
  | .whileLoop _ _ body orelse => ownedReturnsOf body ++ ownedReturnsOf orelse
  | .withBlock _ _ _ body => ownedReturnsOf body
  | .tryBlock _ _ body handlers orelse finale =>
    ownedReturnsOf body ++ handlerReturns handlers ++ ownedReturnsOf orelse
      ++ ownedReturnsOf finale
  | .matchOn _ _ cases => caseReturns cases
  | _ => []

def ownedReturnsOf : List Stmt → List Return
  | [] => []
  | s :: ss => ownedReturns s ++ ownedReturnsOf ss

def handlerReturns : List (Handler Stmt) → List Return
  | [] => []
  | ⟨_, _, _, body⟩ :: hs => ownedReturnsOf body ++ handlerReturns hs

def caseReturns : List (MatchCase Stmt) → List Return
  | [] => []
  | ⟨_, _, body⟩ :: cs => ownedReturnsOf body ++ caseReturns cs

end

namespace Route

/-- A value as the answer of a handler. A table is sent as records, together with its rendered
form. -/
def respond (value : Text) (returnType : Option WireType) : Text :=
  if returnType = some .table then
    "\x7b\"response\": (__frame := " ++ value
      ++ ").to_dict(orient=\"records\"), \"table\": __frame.to_html()\x7d"
  else "\x7b\"response\": " ++ value ++ "\x7d"

/-- The forms that stand only in brackets inside a record. Their spans leave the brackets out. -/
def needsBrackets : Expr → Bool
  | .tuple .. | .named .. | .yield .. | .yieldFrom .. => true
  | _ => false

structure Edit where
  span : Span
  text : Text
  deriving DecidableEq, Repr

def returnEdit (source : Source) (returnType : Option WireType) (r : Return) : Edit :=
  match r.value with
  | some value =>
    let text := source.slice value.span
    let text := if needsBrackets value then '(' :: text ++ [')'] else text
    ⟨value.span, respond text returnType⟩
  | none => ⟨r.span, "return " ++ respond "None" none⟩

def replacePart (t : Text) (start stop : Nat) (by_ : Text) : Text :=
  Text.takeBytes start t ++ by_ ++ Text.dropBytes stop t

def applyEdit (offset : Nat) (t : Text) (e : Edit) : Text :=
  replacePart t (e.span.start - offset) (e.span.stop - offset) e.text

def insertEdit (e : Edit) : List Edit → List Edit
  | [] => [e]
  | e' :: es => if e'.span.start ≤ e.span.start then e :: e' :: es else e' :: insertEdit e es

/-- The edits from the last one of a text to the first one, so that none moves a part that is
still to be replaced. -/
def lastFirst (edits : List Edit) : List Edit :=
  edits.foldr insertEdit []

def applyEdits (offset : Nat) (edits : List Edit) (t : Text) : Text :=
  (lastFirst edits).foldl (applyEdit offset) t

/-- Where the lines of a body start, and what stands before them. A body that starts on the
line of its header is taken from there and indented. -/
def bodyStart (source : Source) (first : Stmt) : Nat × Text :=
  let start := first.span.start
  let lineStart := Text.lineStart source.text start
  if Text.isAllBlank (Text.slice source.text lineStart start) then (lineStart, [])
  else (start, standardIndent)

def endLine (t : Text) : Text :=
  if t.getLast? = some '\n' then t else t ++ ['\n']

def bodyLines (source : Source) (returnType : Option WireType) (body : List Stmt) : List Text :=
  match body.head?, body.getLast? with
  | some first, some last =>
    let (start, lead) := bodyStart source first
    let stop := Text.lineEnd source.text last.span.stop
    let edits := (ownedReturnsOf body).map (returnEdit source returnType)
    let region := endLine (applyEdits start edits (Text.slice source.text start stop))
    match Text.lineList region with
    | [] => []
    | l :: ls => (lead ++ l) :: ls
  | _, _ => []

end Route
end Pagewright
