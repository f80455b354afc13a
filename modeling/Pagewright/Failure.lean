import Pagewright.Number.Seconds
import Pagewright.Os
import Pagewright.Route.Basic

namespace Pagewright

inductive BundleFault where
  | emptyCommand
  | notStarted (program : Text) (fault : OsFault)
  | exited (program : Text) (status : Nat) (output : Text)
  | timedOut (program : Text) (limit : Nat)
  | noScript (path : Text) (fault : OsFault)
  deriving DecidableEq, Repr

def BundleFault.message : BundleFault → Text
  | .emptyCommand => "bundler command is empty"
  | .notStarted program fault => "could not start `" ++ program ++ "`: " ++ fault.message
  | .exited program status output =>
    "`" ++ program ++ "` exited with exit status: " ++ Text.ofNat status ++ ": "
      ++ output
  | .timedOut program limit =>
    "`" ++ program ++ "` timed out after " ++ Number.secondsText limit ++ "s"
  | .noScript path fault => "no script output at " ++ path ++ ": " ++ fault.message

inductive PropFault where
  | notKeyword
  | notFinite (value : Text)
  | literal (text : Text)
  | expression (text : Text)
  | number (text : Text)
  | entryKey
  deriving DecidableEq, Repr

def PropFault.message : PropFault → Text
  | .notKeyword => "props must be passed as explicit keywords"
  | .notFinite value => value ++ " is not a finite number"
  | .literal text => "unsupported literal `" ++ text ++ "`"
  | .expression text => "`" ++ text ++ "` is not a literal value"
  | .number text => "`" ++ text ++ "` is not a supported number"
  | .entryKey => "dictionary keys must be strings"

inductive Failure where
  | pointerNotFound (component : Text)
  | noRoutes
  | untyped (function : Text) (params : List Text)
  | bundle (fault : BundleFault)
  | fileExists (path : Text)
  | bindingNotFound (binding : Text) (path : Text)
  | componentNotFound (path : Text)
  | functionNotFound (function : Text)
  | badSource (path : Text) (reason : Text)
  | badProp (key : Text) (fault : PropFault)
  | os (fault : OsFault)
  deriving DecidableEq, Repr

def Failure.message : Failure → Text
  | .pointerNotFound component =>
    "No Python file is being pointed to in " ++ component ++ ". Add a comment at the top of the component (ex: <!-- point ./src/App.py:app -->)"
  | .noRoutes =>
    "No routes were defined on the Python backend. Define backend logic with functions decorated with @app.backend()"
  | .untyped function params =>
    "No types are set on arguments \"" ++ Text.join ", " params ++ "\" of function " ++ function
      ++ "(). Annotate the arguments so they can be decoded correctly"
  | .bundle fault => "Bundling failed: " ++ fault.message
  | .fileExists path => path ++ " already exists"
  | .bindingNotFound binding path =>
    "Instance of module '" ++ binding ++ "' does not exist in " ++ path
  | .componentNotFound path => "Svelte component not found: " ++ path
  | .functionNotFound function => "Function not found: " ++ function ++ "()"
  | .badSource path reason => "Syntax error in " ++ path ++ ": " ++ reason
  | .badProp key fault => "Unsupported value for prop '" ++ key ++ "': " ++ fault.message
  | .os fault => "IO error: " ++ fault.message

end Pagewright
