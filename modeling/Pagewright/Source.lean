import Pagewright.Event
import Pagewright.Failure
import Pagewright.Syntax.Statement
import Pagewright.Text.Lines

namespace Pagewright

open Syntax

structure Source where
  path : Text
  text : Text
  body : List Stmt

structure Definition where
  span : Span
  head : FunctionHead
  body : List Stmt

namespace Definition

def ofStmt? : Stmt → Option Definition
  | .function span head body => some ⟨span, head, body⟩
  | _ => none

def name (d : Definition) : Text :=
  d.head.name

end Definition

namespace Source

def faultReport (t : Text) (f : Fault) : Text :=
  let p := Text.place t f.offset
  f.message ++ " (line " ++ Text.ofNat p.line ++ ", column " ++ Text.ofNat p.column ++ ")"

def ofText [CharacterNames] (path text : Text) : Except Failure Source :=
  match parse text with
  | .ok body => .ok ⟨path, text, body⟩
  | .error f => .error (.badSource path (faultReport text f))

def slice (s : Source) (span : Span) : Text :=
  Text.slice s.text span.start span.stop

def definitions (s : Source) : List Definition :=
  s.body.filterMap Definition.ofStmt?

/-- The function of a name. Of several the last one counts, as it would when the file runs. -/
def definition? (s : Source) (name : Text) : Option Definition :=
  (s.definitions.filter (·.name = name)).getLast?

def readEvent (s : Source) : Event :=
  ⟨.debug, "Parsed " ++ s.path ++ " (" ++ Text.ofNat s.body.length ++ " top-level statements)"⟩

end Source
end Pagewright
