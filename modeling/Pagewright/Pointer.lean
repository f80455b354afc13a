import Pagewright.Text.Blank

namespace Pagewright

/-- The backend file and the binding in it that the first line of a component names:
`<!-- point ./src/App.py:app -->`. -/
structure Pointer where
  backend : Text
  binding : Text
  deriving DecidableEq, Repr

namespace Pointer

def isBindingStart (c : Char) : Bool :=
  c.isAlpha || c = '_'

def isBindingPart (c : Char) : Bool :=
  c.isAlphanum || c = '_'

def isPathPart (c : Char) : Bool :=
  !Text.isBlank c && c ≠ ':'

/-- Reads a pointer comment at the start of a line; anything may follow it. -/
def read? (line : Text) : Option Pointer := do
  let rest ← "<!--".toList.isPrefixOf? (Text.trimLeft line)
  let rest ← "point".toList.isPrefixOf? (Text.trimLeft rest)
  guard (rest.head?.any Text.isBlank)
  let rest := Text.trimLeft rest
  let backend := rest.takeWhile isPathPart
  guard !backend.isEmpty
  let rest ← ":".toList.isPrefixOf? (Text.trimLeft (rest.dropWhile isPathPart))
  let rest := Text.trimLeft rest
  let binding := rest.takeWhile isBindingPart
  guard (binding.head?.any isBindingStart)
  let _ ← "-->".toList.isPrefixOf? (Text.trimLeft (rest.dropWhile isBindingPart))
  some ⟨backend, binding⟩

def text (p : Pointer) : Text :=
  p.backend ++ ':' :: p.binding

end Pointer
end Pagewright
