import Pagewright.Json.Basic

namespace Pagewright.Json

def isNameStart (c : Char) : Bool :=
  c.isAlpha || c = '_' || c = '$'

def isNamePart (c : Char) : Bool :=
  c.isAlphanum || c = '_' || c = '$'

def scriptKey (key : Text) : Text :=
  match key with
  | [] => quote key
  | c :: cs => if isNameStart c && cs.all isNamePart then key else quote key

mutual

/-- The literal of a value: a blank after every comma and colon, and `</` in a string broken up
so that no string closes the script around it. -/
def script : Json → Text
  | .array items => '[' :: itemsScript items ++ [']']
  | .object entries => '{' :: entriesScript entries ++ ['}']
  | .string t => Text.replace (quote t) "</" "<\\/"
  | scalar => scalarText scalar

def itemsScript : List Json → Text
  | [] => []
  | [v] => script v
  | v :: w :: vs => script v ++ ", " ++ itemsScript (w :: vs)

def entriesScript : List (Text × Json) → Text
  | [] => []
  | [(k, v)] => scriptKey k ++ ": " ++ script v
  | (k, v) :: e :: es => scriptKey k ++ ": " ++ script v ++ ", " ++ entriesScript (e :: es)

end

def entryScript (entry : Text × Json) : Text :=
  scriptKey entry.1 ++ ": " ++ script entry.2

end Pagewright.Json
