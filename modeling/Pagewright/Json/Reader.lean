import Pagewright.Json.Basic

namespace Pagewright.Json

open Number

def skipBlanks (t : Text) : Text :=
  t.dropWhile fun c => c = ' ' || c = '\n' || c = '\r' || c = '\t'

def hexValue? (c : Char) : Option Nat :=
  let n := c.toNat
  if 48 ≤ n ∧ n ≤ 57 then some (n - 48)
  else if 97 ≤ n ∧ n ≤ 102 then some (n - 87)
  else if 65 ≤ n ∧ n ≤ 70 then some (n - 55)
  else none

def hexUnit? : Text → Option (Nat × Text)
  | a :: b :: c :: d :: rest => do
    let a ← hexValue? a
    let b ← hexValue? b
    let c ← hexValue? c
    let d ← hexValue? d
    some (a * 4096 + b * 256 + c * 16 + d, rest)
  | _ => none

/-- The character of a `\u` escape; two escaped halves of a pair give one character. -/
def escapedUnit? (t : Text) : Option (Char × Text) := do
  let (high, rest) ← hexUnit? t
  if 0xD800 ≤ high ∧ high < 0xDC00 then
    match rest with
    | '\\' :: 'u' :: rest =>
      let (low, rest) ← hexUnit? rest
      if 0xDC00 ≤ low ∧ low < 0xE000 then
        some (Char.ofNat (0x10000 + (high - 0xD800) * 1024 + (low - 0xDC00)), rest)
      else none
    | _ => none
  else if 0xDC00 ≤ high ∧ high < 0xE000 then none
  else some (Char.ofNat high, rest)

def simpleEscape? : Char → Option Char
  | '"' => some '"'
  | '\\' => some '\\'
  | '/' => some '/'
  | 'b' => some (Char.ofNat 8)
  | 'f' => some (Char.ofNat 12)
  | 'n' => some '\n'
  | 'r' => some '\r'
  | 't' => some '\t'
  | _ => none

def readString : Nat → Text → Option (Text × Text)
  | 0, _ => none
  | _ + 1, [] => none
  | fuel + 1, c :: rest =>
    if c = '"' then some ([], rest)
    else if c = '\\' then
      match rest with
      | 'u' :: rest => do
        let (c, rest) ← escapedUnit? rest
        let (cs, rest) ← readString fuel rest
        some (c :: cs, rest)
      | e :: rest => do
        let c ← simpleEscape? e
        let (cs, rest) ← readString fuel rest
        some (c :: cs, rest)
      | [] => none
    else if c.toNat < 32 then none
    else do
      let (cs, rest) ← readString fuel rest
      some (c :: cs, rest)

def digitsValue (t : Text) : Nat :=
  t.foldl (fun n c => n * 10 + (c.toNat - 48)) 0

/-- A number: a whole one that fits 64 bits stays exact, all others become doubles. A minus sign
before zero makes a double. -/
def readNumber (t : Text) : Option (Json × Text) := do
  let (negative, t) := match t with
    | '-' :: t => (true, t)
    | t => (false, t)
  let whole := t.takeWhile Char.isDigit
  let t := t.dropWhile Char.isDigit
  guard (!whole.isEmpty && (whole.length = 1 || whole.head? ≠ some '0'))
  let (fraction, t) := match t with
    | '.' :: t => (some (t.takeWhile Char.isDigit), t.dropWhile Char.isDigit)
    | t => (none, t)
  guard (fraction ≠ some [])
  let (power, t) ← match t with
    | c :: r =>
      if c = 'e' ∨ c = 'E' then
        let (down, r) := match r with
          | '-' :: r => (true, r)
          | '+' :: r => (false, r)
          | r => (false, r)
        let digits := r.takeWhile Char.isDigit
        if digits.isEmpty then none
        else
          let n : Int := digitsValue digits
          some (some (if down then -n else n), r.dropWhile Char.isDigit)
      else some (none, t)
    | [] => some (none, t)
  let n : Int := if negative then -(digitsValue whole : Int) else digitsValue whole
  if fraction.isNone ∧ power.isNone ∧ isExact n ∧ ¬(negative ∧ n = 0) then
    some (.int n, t)
  else
    let places := fraction.getD []
    let exponent : Int := power.getD 0 - places.length
    some (.real (double.ofDecimal negative (digitsValue (whole ++ places)) exponent), t)

mutual

def readValue : Nat → Text → Option (Json × Text)
  | 0, _ => none
  | fuel + 1, t =>
    match skipBlanks t with
    | [] => none
    | c :: rest =>
      if c = '{' then
        match skipBlanks rest with
        | '}' :: rest => some (.object [], rest)
        | rest => (readEntries fuel rest).map fun (es, rest) => (.object es, rest)
      else if c = '[' then
        match skipBlanks rest with
        | ']' :: rest => some (.array [], rest)
        | rest => (readItems fuel rest).map fun (vs, rest) => (.array vs, rest)
      else if c = '"' then
        (readString (rest.length + 1) rest).map fun (s, rest) => (.string s, rest)
      else if let some rest := "null".toList.isPrefixOf? (c :: rest) then some (.null, rest)
      else if let some rest := "true".toList.isPrefixOf? (c :: rest) then some (.bool true, rest)
      else if let some rest := "false".toList.isPrefixOf? (c :: rest) then
        some (.bool false, rest)
      else readNumber (c :: rest)

def readItems : Nat → Text → Option (List Json × Text)
  | 0, _ => none
  | fuel + 1, t => do
    let (v, rest) ← readValue fuel t
    match skipBlanks rest with
    | ']' :: rest => some ([v], rest)
    | ',' :: rest =>
      let (vs, rest) ← readItems fuel rest
      some (v :: vs, rest)
    | _ => none

def readEntries : Nat → Text → Option (List (Text × Json) × Text)
  | 0, _ => none
  | fuel + 1, t =>
    match skipBlanks t with
    | '"' :: rest => do
      let (k, rest) ← readString (rest.length + 1) rest
      match skipBlanks rest with
      | ':' :: rest =>
        let (v, rest) ← readValue fuel rest
        match skipBlanks rest with
        | '}' :: rest => some ([(k, v)], rest)
        | ',' :: rest =>
          let (es, rest) ← readEntries fuel rest
          some ((k, v) :: es, rest)
        | _ => none
      | _ => none
    | _ => none

end

def read? (t : Text) : Option Json := do
  let (v, rest) ← readValue (2 * t.length + 1) t
  guard (skipBlanks rest).isEmpty
  some v

end Pagewright.Json
