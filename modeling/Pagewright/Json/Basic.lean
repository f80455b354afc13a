import Pagewright.Number.Shortest

namespace Pagewright

open Number

/-- A JSON value. A number is a whole number that fits 64 bits, signed or unsigned, or a
double-precision value. -/
inductive Json where
  | null
  | bool (value : Bool)
  | int (value : Int)
  | real (value : Binary)
  | string (value : Text)
  | array (items : List Json)
  | object (entries : List (Text × Json))
  deriving Inhabited

namespace Json

def isExact (n : Int) : Bool :=
  -(Nat.pow 2 63 : Int) ≤ n ∧ n < (Nat.pow 2 64 : Int)

/-- A double is written positionally from `0.00001` up to sixteen digits before the point, and
always shows that it is not a whole number. -/
def realLayout : Layout :=
  ⟨some (-5, 15), true, false⟩

def hexDigit (n : Nat) : Char :=
  if n < 10 then Char.ofNat (48 + n) else Char.ofNat (87 + n)

/-- A character inside quotes: quote, backslash and the controls below the blank are escaped. -/
def escapeChar (c : Char) : Text :=
  if c = '"' then ['\\', '"']
  else if c = '\\' then ['\\', '\\']
  else if c = '\n' then ['\\', 'n']
  else if c = '\r' then ['\\', 'r']
  else if c = '\t' then ['\\', 't']
  else if c = Char.ofNat 8 then ['\\', 'b']
  else if c = Char.ofNat 12 then ['\\', 'f']
  else if c.toNat < 32 then
    ['\\', 'u', '0', '0', hexDigit (c.toNat / 16), hexDigit (c.toNat % 16)]
  else [c]

def quote (t : Text) : Text :=
  '"' :: t.flatMap escapeChar ++ ['"']

def scalarText : Json → Text
  | .null => "null"
  | .bool true => "true"
  | .bool false => "false"
  | .int n => Text.ofInt n
  | .real x => double.render realLayout x
  | .string t => quote t
  | .array _ | .object _ => []

mutual

def text : Json → Text
  | .array items => '[' :: itemsText items ++ [']']
  | .object entries => '{' :: entriesText entries ++ ['}']
  | scalar => scalarText scalar

def itemsText : List Json → Text
  | [] => []
  | [v] => text v
  | v :: w :: vs => text v ++ ',' :: itemsText (w :: vs)

def entriesText : List (Text × Json) → Text
  | [] => []
  | [(k, v)] => quote k ++ ':' :: text v
  | (k, v) :: e :: es => quote k ++ ':' :: text v ++ ',' :: entriesText (e :: es)

end

def get? (key : Text) : Json → Option Json
  | .object entries => entries.lookup key
  | _ => none

end Json
end Pagewright
