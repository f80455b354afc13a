import Pagewright.Text.Basic

namespace Pagewright.Scaffold

def packages : List Text :=
  [ "@rollup/plugin-commonjs"
  , "@rollup/plugin-node-resolve"
  , "rollup"
  , "rollup-plugin-css-only"
  , "rollup-plugin-livereload"
  , "rollup-plugin-svelte"
  , "rollup-plugin-terser"
  , "svelte" ]

def document (lines : List Text) : Text :=
  lines.flatMap (· ++ ['\n'])

def component : Text :=
  document
    [ "<!-- point ./src/App.py:app -->"
    , "<script>"
    , "    import \x7b say_hello \x7d from \"./api\""
    , ""
    , "    let text = \"\""
    , "</script>"
    , ""
    , "<main>"
    , "    <p>Welcome to Spylt</p><br>"
    , "    <input type=\"text\" name=\"Name\" bind:value=\x7btext\x7d>"
    , "    <button type=\"submit\" on:click=\x7b() => alert(say_hello(text))\x7d>Greet</button>"
    , "</main>" ]

def backend : Text :=
  document
    [ "from spylt import require_svelte"
    , ""
    , "app = require_svelte(\"./src/App.svelte\")"
    , ""
    , ""
    , "@app.backend()"
    , "def say_hello(name: str) -> str:"
    , "    \"\"\"Says hello to the user\"\"\""
    , "    return f\"Hello \x7bname\x7d\""
    , ""
    , ""
    , "@app.backend()"
    , "def scream_hello(name: str) -> str:"
    , "    \"\"\"Screams hello to the user\"\"\""
    , "    return f\"HELLO \x7bname.upper()\x7d!!\"" ]

def bundlerConfig : Text :=
  document
    [ "import svelte from 'rollup-plugin-svelte';"
    , "import commonjs from '@rollup/plugin-commonjs';"
    , "import resolve from '@rollup/plugin-node-resolve';"
    , "import css from 'rollup-plugin-css-only';"
    , "import \x7b terser \x7d from 'rollup-plugin-terser';"
    , ""
    , "// The entry module arrives on stdin; spylt passes --file for the output."
    , "export default \x7b"
    , "\toutput: \x7b"
    , "\t\tsourcemap: false,"
    , "\t\tformat: 'iife',"
    , "\t\tname: 'app'"
    , "\t\x7d,"
    , "\tplugins: ["
    , "\t\tsvelte(\x7b"
    , "\t\t\tcompilerOptions: \x7b"
    , "\t\t\t\tdev: false"
    , "\t\t\t\x7d"
    , "\t\t\x7d),"
    , "\t\tcss(\x7b output: 'bundle.css' \x7d),"
    , "\t\tresolve(\x7b"
    , "\t\t\tbrowser: true,"
    , "\t\t\tdedupe: ['svelte']"
    , "\t\t\x7d),"
    , "\t\tcommonjs(),"
    , "\t\tterser()"
    , "\t]"
    , "\x7d;" ]

def ignored : Text :=
  document
    [ "node_modules/"
    , "__buildcache__/"
    , "__pycache__/"
    , "index.html"
    , "main.py" ]

def packageDescription (name : Text) : Text :=
  document
    [ "\x7b"
    , "  \"name\": \"".toList ++ name ++ "\",".toList
    , "  \"version\": \"0.1.0\","
    , "  \"private\": true,"
    , "  \"scripts\": \x7b"
    , "    \"interface\": \"spylt interface\","
    , "    \"build\": \"spylt build\""
    , "  \x7d,"
    , "  \"devDependencies\": \x7b\x7d"
    , "\x7d" ]

def isPackageMark (c : Char) : Bool :=
  c = '.' || c = '_' || c = '-'

/-- What a character becomes in a package name: a letter in lower case, a digit or a mark stays,
anything else is a hyphen. Beyond ASCII two characters have a lower case with an ASCII letter
in it: the dotted capital I, where a combining dot follows the letter, and the Kelvin sign. -/
def packageChars (c : Char) : Text :=
  if c.isAlphanum then [c.toLower]
  else if isPackageMark c then [c]
  else if c = '\u0130' then ['i', '-']
  else if c = '\u212A' then ['k']
  else ['-']

def defaultPackageName : Text := "spylt-app"

def packageName (name : Text) : Text :=
  let cleaned := (name.flatMap packageChars).dropWhile isPackageMark
  if cleaned.isEmpty then defaultPackageName else cleaned

/-- The files of a new project, by their paths from its directory, in the order in which they
are written. -/
def files (name : Text) : List (Text × Text) :=
  [ ("src/App.svelte", component)
  , ("src/App.py", backend)
  , ("rollup.config.js", bundlerConfig)
  , ("package.json", packageDescription (packageName name))
  , (".gitignore", ignored) ]

end Pagewright.Scaffold
