import Pagewright.Json.Script

namespace Pagewright.Entry

/-- A component path inside single quotes: backslashes become slashes, quotes are escaped. -/
def specifier (component : Text) : Text :=
  Text.replace (Text.replace component "\\" "/") "'" "\\'"

def propLines (props : List (Text × Json)) : Text :=
  Text.join ",\n      " (props.map Json.entryScript)

def render (component : Text) (props : List (Text × Json)) : Text :=
  "import App from '" ++ specifier component ++ "';

const app = new App(\x7b
    target: document.body,
    props: \x7b
      " ++ propLines props ++ "
    \x7d
\x7d);

export default app;"

end Pagewright.Entry
