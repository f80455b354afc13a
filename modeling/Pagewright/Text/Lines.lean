import Pagewright.Text.Basic

namespace Pagewright.Text

def takeBytes : Nat → Text → Text
  | _, [] => []
  | n, c :: cs => if n = 0 then [] else c :: takeBytes (n - c.utf8Size) cs

def dropBytes : Nat → Text → Text
  | _, [] => []
  | n, c :: cs => if n = 0 then c :: cs else dropBytes (n - c.utf8Size) cs

def slice (t : Text) (start stop : Nat) : Text :=
  takeBytes (stop - start) (dropBytes start t)

def lastLine (t : Text) : Text :=
  (t.reverse.takeWhile (· ≠ '\n')).reverse

def firstLine : Text → Text
  | [] => []
  | c :: cs => if c = '\n' then [c] else c :: firstLine cs

def lineStart (t : Text) (offset : Nat) : Nat :=
  size (takeBytes offset t) - size (lastLine (takeBytes offset t))

def lineEnd (t : Text) (offset : Nat) : Nat :=
  offset + size (firstLine (dropBytes offset t))

/-- A line and a column. Both count from one, the column in characters. -/
structure Place where
  line : Nat
  column : Nat
  deriving DecidableEq, Repr

def place (t : Text) (offset : Nat) : Place :=
  let before := takeBytes offset t
  ⟨before.count '\n' + 1, (lastLine before).length + 1⟩

end Pagewright.Text
