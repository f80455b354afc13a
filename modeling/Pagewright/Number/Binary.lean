namespace Pagewright.Number

/-- A binary format: `width` bits of significand, scales from `low` to `high`. -/
structure Format where
  width : Nat
  low : Int
  high : Int
  deriving DecidableEq, Repr

def double : Format := ⟨53, -1074, 971⟩

def single : Format := ⟨24, -149, 104⟩

/-- A value of a binary format: `significand · 2^scale` with a sign, or an infinity. -/
inductive Binary where
  | finite (negative : Bool) (significand : Nat) (scale : Int)
  | infinite (negative : Bool)
  deriving DecidableEq, Repr, Inhabited

def roundHalfEven (num den : Nat) : Nat :=
  let q := num / den
  let twice := 2 * (num % den)
  if twice < den then q
  else if den < twice then q + 1
  else q + q % 2

def scaled (num den : Nat) (scale : Int) : Nat × Nat :=
  if 0 ≤ scale then (num, den * Nat.pow 2 scale.toNat) else (num * Nat.pow 2 (-scale).toNat, den)

/-- The least scale at which the quotient has at most `width` bits before the point, if the
format has it. -/
def Format.scaleOf (f : Format) (num den : Nat) : Int :=
  let guess : Int := (num.log2 : Int) - (den.log2 : Int) - f.width
  let (n, d) := scaled num den guess
  max f.low (if n / d < Nat.pow 2 f.width then guess else guess + 1)

/-- The value of the format nearest to `num / den`, a half to the even significand; past the
largest value it is infinite. -/
def Format.round (f : Format) (negative : Bool) (num den : Nat) : Binary :=
  if num = 0 then .finite negative 0 f.low
  else
    let scale := f.scaleOf num den
    let (n, d) := scaled num den scale
    let m := roundHalfEven n d
    let (m, scale) := if m = Nat.pow 2 f.width then (m / 2, scale + 1) else (m, scale)
    if f.high < scale then .infinite negative else .finite negative m scale

/-- The value nearest to `digits · 10^exponent`. Exponents far outside the range of the format
are settled without the power. -/
def Format.ofDecimal (f : Format) (negative : Bool) (digits : Nat) (exponent : Int) : Binary :=
  let magnitude : Int := (Nat.toDigits 10 digits).length + exponent
  if digits = 0 ∨ magnitude < -400 then .finite negative 0 f.low
  else if 400 < magnitude then .infinite negative
  else if 0 ≤ exponent then f.round negative (digits * Nat.pow 10 exponent.toNat) 1
  else f.round negative digits (Nat.pow 10 (-exponent).toNat)

def quotient (significand : Nat) (scale : Int) : Nat × Nat :=
  if 0 ≤ scale then (significand * Nat.pow 2 scale.toNat, 1)
  else (significand, Nat.pow 2 (-scale).toNat)

end Pagewright.Number
