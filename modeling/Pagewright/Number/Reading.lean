import Pagewright.Json.Basic
import Pagewright.Text.Blank

namespace Pagewright.Number

def ofDigits (digits : Text) : Nat :=
  digits.foldl (fun n c => n * 10 + (c.toNat - 48)) 0

def readSign : Text → Bool × Text
  | '-' :: rest => (true, rest)
  | '+' :: rest => (false, rest)
  | t => (false, t)

def whole? (t : Text) : Option Int :=
  let (negative, digits) := readSign t
  if digits.isEmpty || !digits.all Char.isDigit then none
  else some (if negative then -(ofDigits digits : Int) else ofDigits digits)

def exponent? : Text → Option Int
  | [] => some 0
  | e :: rest => if e = 'e' || e = 'E' then whole? rest else none

/-- A finite double in decimal notation: digits on at least one side of a point, and perhaps an
exponent. Words for infinities and for no number are refused. -/
def double? (t : Text) : Option Binary := do
  let (negative, t) := readSign t
  let before := t.takeWhile Char.isDigit
  let rest := t.dropWhile Char.isDigit
  let (places, rest) := match rest with
    | '.' :: r => (r.takeWhile Char.isDigit, r.dropWhile Char.isDigit)
    | r => ([], r)
  guard !(before.isEmpty && places.isEmpty)
  let e ← exponent? rest
  match double.ofDecimal negative (ofDigits (before ++ places)) (e - places.length) with
  | .finite n m s => some (.finite n m s)
  | .infinite _ => none

def json? (t : Text) : Option Json :=
  let cleaned := t.filter fun c => c ≠ '_' && !Text.isBlank c
  match (whole? cleaned).filter Json.isExact with
  | some n => some (.int n)
  | none => (double? cleaned).map .real

end Pagewright.Number
