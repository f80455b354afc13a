import Pagewright.Number.Shortest

namespace Pagewright.Number

def Format.add (f : Format) : Binary → Binary → Binary
  | .finite _ m s, .finite _ m' s' =>
    let (n, d) := quotient m s
    let (n', d') := quotient m' s'
    f.round false (n * d' + n' * d) (d * d')
  | _, _ => .infinite false

/-- Milliseconds as seconds. The seconds and the fraction are each rounded to single precision, and
so is their sum. -/
def seconds (milliseconds : Nat) : Binary :=
  single.add (single.round false (milliseconds / 1000) 1)
    (single.round false (milliseconds % 1000) 1000)

def secondsText (milliseconds : Nat) : Text :=
  single.render positional (seconds milliseconds)

end Pagewright.Number
