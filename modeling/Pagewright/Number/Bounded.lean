import Pagewright.Text.Basic

namespace Pagewright.Number

inductive BoundedFault where
  | empty
  | invalidDigit
  | tooLarge
  deriving DecidableEq, Repr

def BoundedFault.message : BoundedFault → Text
  | .empty => "cannot parse integer from empty string"
  | .invalidDigit => "invalid digit found in string"
  | .tooLarge => "number too large to fit in target type"

/-- Reads decimal digits after those that gave `n`. The first character at fault decides. -/
def boundedFrom (bound : Nat) : Nat → Text → Except BoundedFault Nat
  | n, [] => .ok n
  | n, c :: cs =>
    if c.isDigit then
      let m := n * 10 + (c.toNat - 48)
      if m < bound then boundedFrom bound m cs else .error .tooLarge
    else .error .invalidDigit

def bounded (bound : Nat) : Text → Except BoundedFault Nat
  | [] => .error .empty
  | ['+'] => .error .invalidDigit
  | '+' :: digits => boundedFrom bound 0 digits
  | digits => boundedFrom bound 0 digits

end Pagewright.Number
