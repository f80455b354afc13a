import Pagewright.Number.Binary
import Pagewright.Text.Basic

namespace Pagewright.Number

/-- A decimal: its digits without trailing zeros, and the power of ten of the first one. -/
structure Digits where
  digits : Text
  exponent : Int
  deriving DecidableEq, Repr

/-- Whether `num / den` rounds to the value `significand · 2^scale` of the format. The interval
reaches half way to both neighbours and holds its ends when the significand is even; below a
power of two the lower neighbour is nearer. -/
def Format.readsBack (f : Format) (significand : Nat) (scale : Int) (num den : Nat) : Bool :=
  let narrow := significand = Nat.pow 2 (f.width - 1) ∧ f.low < scale
  -- In quarters of the last place: the value is `4 · significand`.
  let (n, d) := scaled (4 * num) den scale
  let lower := if narrow then 4 * significand - 1 else 4 * significand - 2
  let upper := 4 * significand + 2
  if significand % 2 = 0 then lower * d ≤ n ∧ n ≤ upper * d
  else lower * d < n ∧ n < upper * d

def tenTo (e : Int) : Nat × Nat :=
  if 0 ≤ e then (Nat.pow 10 e.toNat, 1) else (1, Nat.pow 10 (-e).toNat)

/-- The point of the grid of `10^step` that reads back, the nearer one of two; `none` if no
neighbour of the value does. Of two equally near ones it is the even one, or with `tieUp` the upper
one. -/
def Format.gridPoint (f : Format) (tieUp : Bool) (significand : Nat) (scale step : Int) :
    Option Nat :=
  let (n, d) := quotient significand scale
  let (p, q) := tenTo step
  let below := (n * q) / (d * p)
  let rest := (n * q) % (d * p)
  let back (k : Nat) := k ≠ 0 && f.readsBack significand scale (k * p) q
  match back below, back (below + 1) with
  | true, true =>
    let isTie := 2 * rest = d * p
    some (if 2 * rest < d * p ∨ isTie ∧ !tieUp ∧ below % 2 = 0 then below else below + 1)
  | true, false => some below
  | false, true => some (below + 1)
  | false, false => none

def Format.search (f : Format) (tieUp : Bool) (significand : Nat) (scale : Int) :
    Nat → Int → Option (Nat × Int)
  | 0, _ => none
  | fuel + 1, step =>
    match f.gridPoint tieUp significand scale step with
    | some k => some (k, step)
    | none => f.search tieUp significand scale fuel (step - 1)

def leadingExponent (significand : Nat) (scale : Int) : Int :=
  let shift : Nat := 400
  let (n, d) := quotient significand scale
  ((Nat.toDigits 10 (n * Nat.pow 10 shift / d)).length : Int) - 1 - shift

def Format.shortest (f : Format) (tieUp : Bool) (significand : Nat) (scale : Int) : Digits :=
  if significand = 0 then ⟨['0'], 0⟩
  else
    let first := leadingExponent significand scale
    match f.search tieUp significand scale 20 first with
    | none => ⟨['0'], 0⟩
    | some (k, step) =>
      let all := Nat.toDigits 10 k
      let kept := (all.reverse.dropWhile (· = '0')).reverse
      ⟨kept, (all.length : Int) - 1 + step⟩

def Digits.positional (d : Digits) : Text :=
  let n := d.digits.length
  if d.exponent < 0 then
    "0." ++ List.replicate (-d.exponent - 1).toNat '0' ++ d.digits
  else
    let whole := d.exponent.toNat + 1
    if n ≤ whole then d.digits ++ List.replicate (whole - n) '0'
    else d.digits.take whole ++ '.' :: d.digits.drop whole

/-- One digit before the point, the power of ten after an `e` with its sign. -/
def Digits.scientific (d : Digits) : Text :=
  let head := d.digits.take 1
  let tail := d.digits.drop 1
  let point : Text := if tail.isEmpty then [] else '.' :: tail
  let sign := if d.exponent < 0 then '-' else '+'
  head ++ point ++ 'e' :: sign :: Text.ofNat d.exponent.natAbs

/-- How numbers are laid out: positional while the power of ten of the first digit lies between
two bounds, whether a whole number keeps a point and a zero, and which of two equally near
decimals is taken. -/
structure Layout where
  plain : Option (Int × Int)
  keepPoint : Bool
  tieUp : Bool

def Layout.layOut (s : Layout) (d : Digits) : Text :=
  let isPlain := match s.plain with
    | none => true
    | some (low, high) => low ≤ d.exponent ∧ d.exponent ≤ high
  if isPlain then
    let text := d.positional
    if s.keepPoint && !text.contains '.' then text ++ ".0" else text
  else d.scientific

/-- The text of a value: the shortest digits, in the given layout. -/
def Format.render (f : Format) (s : Layout) : Binary → Text
  | .finite negative significand scale =>
    let text := s.layOut (f.shortest s.tieUp significand scale)
    if negative then '-' :: text else text
  | .infinite negative => if negative then "-inf" else "inf"

def positional : Layout := ⟨none, false, true⟩

end Pagewright.Number
