import Pagewright.Text.Basic

namespace Pagewright.Text

/-- The characters with the property White_Space. The separators U+001C to U+001F, the
zero-width space and the byte order mark do not have it. -/
def isBlank (c : Char) : Bool :=
  let n := c.toNat
  (0x9 ≤ n && n ≤ 0xD) || n == 0x20 || n == 0x85 || n == 0xA0 || n == 0x1680
    || (0x2000 ≤ n && n ≤ 0x200A) || n == 0x2028 || n == 0x2029 || n == 0x202F
    || n == 0x205F || n == 0x3000

def trimLeft (t : Text) : Text :=
  t.dropWhile isBlank

def dropEndWhile (p : Char → Bool) (t : Text) : Text :=
  (t.reverse.dropWhile p).reverse

def trimRight (t : Text) : Text :=
  dropEndWhile isBlank t

def trim (t : Text) : Text :=
  trimRight (trimLeft t)

def isAllBlank (t : Text) : Bool :=
  t.all isBlank

def words : Text → List Text
  | [] => []
  | [c] => if isBlank c then [] else [[c]]
  | c :: d :: cs =>
    if isBlank c then words (d :: cs)
    else if isBlank d then [c] :: words (d :: cs)
    else match words (d :: cs) with
      | [] => [[c]]
      | w :: ws => (c :: w) :: ws

end Pagewright.Text
