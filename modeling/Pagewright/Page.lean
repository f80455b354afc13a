import Pagewright.Text.Blank

namespace Pagewright.Page

def isMargin (c : Char) : Bool :=
  c = ' ' || c = '\t'

def footerMark : Text := "//# sourceMappingURL="

def footerBlockMark : Text := "/*# sourceMappingURL="

def dropOne (c : Char) : Text → Text
  | [] => []
  | d :: ds => if d = c then ds else d :: ds

/-- A line without the source-map footer that it starts with; the end of the line goes with
the footer. -/
def stripFooterLine (line : Text) : Text :=
  match footerMark.isPrefixOf? (line.dropWhile isMargin) with
  | none => line
  | some rest =>
    let rest := (rest.dropWhile (fun c => !Text.isBlank c)).dropWhile isMargin
    dropOne '\n' (dropOne '\r' rest)

def stripFooterLines (t : Text) : Text :=
  (Text.lineList t).flatMap stripFooterLine

/-- The number of characters of a footer block at the start of a text. The block ends at its
first star, which a slash must follow. -/
def footerBlockLength? (t : Text) : Option Nat := do
  let rest ← footerBlockMark.isPrefixOf? t
  let address := rest.takeWhile (· ≠ '*')
  let _ ← "*/".toList.isPrefixOf? (rest.dropWhile (· ≠ '*'))
  some (footerBlockMark.length + address.length + 2)

/-- Removes source-map footer blocks; `skip` characters of one are still to be passed over. -/
def stripFooterBlocks : Nat → Text → Text
  | _, [] => []
  | skip + 1, _ :: cs => stripFooterBlocks skip cs
  | 0, c :: cs =>
    match footerBlockLength? (c :: cs) with
    | some n => stripFooterBlocks (n - 1) cs
    | none => c :: stripFooterBlocks 0 cs

/-- Removes strict-mode directives, source-map footers and outer blanks. -/
def stripAsset (t : Text) : Text :=
  let t := Text.replace t "\"use strict\";" ""
  let t := Text.replace t "'use strict';" ""
  Text.trim (stripFooterBlocks 0 (stripFooterLines t))

def head : Text :=
"<!DOCTYPE html>
<html lang=\"en\">
<head>
    <meta charset=\"utf-8\">
    <meta name=\"viewport\" content=\"width=device-width, initial-scale=1.0\">
    <title>Document</title>
    <style>"

/-- The shell between stylesheet and script; it holds the synchronous request that the client
calls. -/
def middle : Text :=
"</style>
</head>
<body>
    <script>
        function fetchSync(url) \x7b
            const xhr = new XMLHttpRequest();
            xhr.open('GET', url, false);
            xhr.send();

            if (xhr.status === 200) \x7b
                return JSON.parse(xhr.responseText);
            \x7d else \x7b
                throw new Error('Failed to fetch data');
            \x7d
        \x7d
    </script>
    <script>"

def tail : Text :=
"</script>
</body>
</html>
"

def render (script style : Text) : Text :=
  head ++ stripAsset style ++ middle ++ stripAsset script ++ tail

end Pagewright.Page
