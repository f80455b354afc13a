import Pagewright.Route.Basic

namespace Pagewright.WireType

def listed : List (Text × WireType) :=
  [("str", .string), ("int", .integer), ("bool", .boolean),
   ("list", .list), ("List", .list), ("typing.List", .list),
   ("DataFrame", .table), ("pd.DataFrame", .table), ("pandas.DataFrame", .table)]

def isQuote (c : Char) : Bool :=
  c = '"' || c = '\''

/-- Quotes and surrounding blanks are dropped, and a subscript resolves by what it subscripts. -/
def hintBase (hint : Text) : Text :=
  let bare := Text.dropEndWhile isQuote ((Text.trim hint).dropWhile isQuote)
  Text.trim (bare.takeWhile (· ≠ '['))

def ofHint? (hint : Text) : Option WireType :=
  listed.lookup (hintBase hint)

def scriptName : WireType → Text
  | .string => "string"
  | .integer => "number"
  | .boolean => "boolean"
  | .list => "any[]"
  | .table => "object[]"

def label : WireType → Text
  | .string => "string"
  | .integer => "integer"
  | .boolean => "boolean"
  | .list => "list"
  | .table => "table"

end Pagewright.WireType
