import Pagewright.Text.Basic

namespace Pagewright

inductive Level where
  | debug
  | info
  | warn
  deriving DecidableEq, Repr

def Level.text : Level → Text
  | .debug => "DEBUG"
  | .info => "INFO"
  | .warn => "WARN"

/-- The levels that a run shows when asked for one of them by name: that level and those more
urgent than it. -/
def Level.shownFrom (name : Text) : List Level :=
  if name = "warn".toList then [.warn]
  else if name = "info".toList then [.warn, .info]
  else if name = "debug".toList || name = "trace".toList then [.warn, .info, .debug]
  else []

structure Event where
  level : Level
  message : Text
  deriving DecidableEq, Repr

def Event.text (e : Event) : Text :=
  e.level.text ++ ' ' :: e.message

end Pagewright
