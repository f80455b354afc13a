namespace Pagewright

abbrev Text := List Char

instance : Coe String Text := ⟨String.toList⟩

namespace Text

def size : Text → Nat
  | [] => 0
  | c :: cs => c.utf8Size + size cs

/-- The pieces of a text between the occurrences of a separator. There is always one more
piece than there are separators. -/
def pieces (sep : Char) : Text → List Text
  | [] => [[]]
  | c :: cs =>
    if c = sep then [] :: pieces sep cs
    else match pieces sep cs with
      | [] => [[c]]
      | p :: ps => (c :: p) :: ps

def lineList : Text → List Text
  | [] => []
  | c :: cs =>
    if c = '\n' then [c] :: lineList cs
    else match lineList cs with
      | [] => [[c]]
      | l :: ls => (c :: l) :: ls

/-- A line without its line feed and the carriage return before it. A carriage return that no
line feed follows belongs to the line. -/
def chomp (line : Text) : Text :=
  if line.getLast? = some '\n' then
    let body := line.dropLast
    if body.getLast? = some '\r' then body.dropLast else body
  else line

/-- The lines of a text without their ends; a text that ends a line starts no further one. -/
def lines (t : Text) : List Text :=
  (lineList t).map chomp

/-- Replaces the occurrences of `target` from left to right; `skip` characters of an
occurrence are still to be passed over. -/
def replaceFrom (target by_ : Text) : Nat → Text → Text
  | _, [] => []
  | skip + 1, _ :: cs => replaceFrom target by_ skip cs
  | 0, c :: cs =>
    if target.isPrefixOf (c :: cs) then by_ ++ replaceFrom target by_ (target.length - 1) cs
    else c :: replaceFrom target by_ 0 cs

/-- Every occurrence of a non-empty `target`, found from left to right, is replaced. -/
def replace (t target by_ : Text) : Text :=
  replaceFrom target by_ 0 t

def hasPart (part : Text) : Text → Bool
  | [] => part.isEmpty
  | c :: cs => part.isPrefixOf (c :: cs) || hasPart part cs

def splitAt? (mark : Text) : Text → Option (Text × Text)
  | [] => if mark.isEmpty then some ([], []) else none
  | c :: cs =>
    match mark.isPrefixOf? (c :: cs) with
    | some rest => some ([], rest)
    | none => (splitAt? mark cs).map fun (head, rest) => (c :: head, rest)

def join (sep : Text) (ts : List Text) : Text :=
  sep.intercalate ts

def ofNat (n : Nat) : Text :=
  (Nat.toDigits 10 n)

def ofInt (n : Int) : Text :=
  if n < 0 then '-' :: ofNat n.natAbs else ofNat n.natAbs

end Text
end Pagewright
