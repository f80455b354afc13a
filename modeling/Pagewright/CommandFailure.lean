import Pagewright.Failure
import Pagewright.Number.Bounded

namespace Pagewright

inductive Activity where
  | reading (path : Text)
  | loading (pointer : Text)
  | creating (path : Text)
  | writing (path : Text)
  | running (program : Text)
  deriving DecidableEq, Repr

def Activity.text : Activity → Text
  | .reading path => "reading " ++ path
  | .loading pointer => "loading module " ++ pointer
  | .creating path => "creating " ++ path
  | .writing path => "writing " ++ path
  | .running program => "running " ++ program

inductive CommandFailure where
  | failure (cause : Failure)
  | os (fault : OsFault)
  | zeroTimeout
  | badTimeout (written : Text) (fault : Number.BoundedFault)
  | npmMissing
  | npmFailed (status : Nat)
  | during (activity : Activity) (cause : CommandFailure)
  deriving DecidableEq, Repr

namespace CommandFailure

/-- The whole chain of causes, outermost first. A fault of the operating system is a cause of
its own beneath the failure that reports it. -/
def message : CommandFailure → Text
  | .failure (.os fault) => (Failure.os fault).message ++ ": " ++ fault.message
  | .failure cause => cause.message
  | .os fault => fault.message
  | .zeroTimeout => "bundle timeout must be at least one second"
  | .badTimeout written fault =>
    "SPYLT_BUNDLE_TIMEOUT must be a whole number of seconds, got '" ++ written ++ "': "
      ++ fault.message
  | .npmMissing =>
    "Node and npm are not installed. Consider installing with nvm: https://github.com/nvm-sh/nvm#installing-and-updating"
  | .npmFailed status => "npm install exited with exit status: " ++ Text.ofNat status
  | .during activity cause => activity.text ++ ": " ++ cause.message

def failure? : CommandFailure → Option Failure
  | .failure cause => some cause
  | .during _ cause => cause.failure?
  | _ => none

end CommandFailure
end Pagewright
