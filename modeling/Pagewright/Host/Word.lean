import Pagewright.Text.Basic

namespace Pagewright.Shell

inductive Part where
  | literal (t : Text) (isQuoted : Bool)
  | parameter (name : Text) (isQuoted : Bool)
  | command (script : Text) (isQuoted : Bool)
  deriving DecidableEq, Repr

abbrev Word := List Part

/-- A token of a script. `unclosed` stands where a quote is not closed before the end. -/
inductive Token where
  | word (w : Word)
  | operator (t : Text)
  | redirection (stream : Option Nat) (operator : Text)
  | lineEnd
  | unclosed
  deriving DecidableEq, Repr

def isNameStart (c : Char) : Bool :=
  c.isAlpha || c = '_'

def isNamePart (c : Char) : Bool :=
  c.isAlphanum || c = '_'

def isSpace (c : Char) : Bool :=
  c = ' ' || c = '\t'

def isWordEnd (c : Char) : Bool :=
  isSpace c || "\n;&|<>()".toList.contains c

def isSpecialParameter (c : Char) : Bool :=
  "@*#?$!-".toList.contains c

def closing : Nat → Text → Option (Text × Text)
  | _, [] => none
  | depth, c :: cs =>
    if c = '(' then (closing (depth + 1) cs).map fun (t, rest) => (c :: t, rest)
    else if c = ')' then
      match depth with
      | 0 => some ([], cs)
      | depth + 1 => (closing depth cs).map fun (t, rest) => (c :: t, rest)
    else (closing depth cs).map fun (t, rest) => (c :: t, rest)

def backquote : Char := '\x60'

def expansion (isQuoted : Bool) : Text → Option (Part × Text)
  | '$' :: '(' :: cs => (closing 0 cs).map fun (t, rest) => (.command t isQuoted, rest)
  | '$' :: '\x7b' :: cs =>
    let name := cs.takeWhile (· ≠ '\x7d')
    match cs.dropWhile (· ≠ '\x7d') with
    | _ :: rest => some (.parameter name isQuoted, rest)
    | [] => none
  | '$' :: c :: cs =>
    if isNameStart c then
      some (.parameter (c :: cs.takeWhile isNamePart) isQuoted, cs.dropWhile isNamePart)
    else if c.isDigit || isSpecialParameter c then some (.parameter [c] isQuoted, cs)
    else none
  | c :: cs =>
    if c = backquote then
      match cs.dropWhile (· ≠ backquote) with
      | _ :: rest => some (.command (cs.takeWhile (· ≠ backquote)) isQuoted, rest)
      | [] => none
    else none
  | [] => none

def isEscapable (c : Char) : Bool :=
  "$\"\\\x60".toList.contains c

def doubleQuoted : Nat → Text → Option (Word × Text)
  | 0, _ => none
  | _ + 1, [] => none
  | _ + 1, '"' :: rest => some ([], rest)
  | n + 1, '\\' :: '\n' :: rest => doubleQuoted n rest
  | n + 1, '\\' :: c :: rest =>
    let t := if isEscapable c then [c] else ['\\', c]
    (doubleQuoted n rest).map fun (w, rest) => (.literal t true :: w, rest)
  | n + 1, c :: rest =>
    match expansion true (c :: rest) with
    | some (part, rest) => (doubleQuoted n rest).map fun (w, rest) => (part :: w, rest)
    | none => (doubleQuoted n rest).map fun (w, rest) => (.literal [c] true :: w, rest)

def wordParts : Nat → Text → Option (Word × Text)
  | 0, rest => some ([], rest)
  | _ + 1, [] => some ([], [])
  | n + 1, '\\' :: '\n' :: rest => wordParts n rest
  | n + 1, '\\' :: c :: rest =>
    (wordParts n rest).map fun (w, rest) => (.literal [c] true :: w, rest)
  | n + 1, '\'' :: rest =>
    let t := rest.takeWhile (· ≠ '\'')
    match rest.dropWhile (· ≠ '\'') with
    | [] => none
    | _ :: rest => (wordParts n rest).map fun (w, rest) => (.literal t true :: w, rest)
  | n + 1, '"' :: rest => do
    let (quoted, rest) ← doubleQuoted (rest.length + 1) rest
    let (w, rest) ← wordParts n rest
    some (.literal [] true :: quoted ++ w, rest)
  | n + 1, c :: rest =>
    if isWordEnd c then some ([], c :: rest)
    else match expansion false (c :: rest) with
      | some (part, rest) => (wordParts n rest).map fun (w, rest) => (part :: w, rest)
      | none =>
        let t := c :: rest.takeWhile isNamePart
        (wordParts n (rest.dropWhile isNamePart)).map fun (w, rest) =>
          (.literal t false :: w, rest)

def operators : List Text :=
  ["&&", "||", ";;", ";", "&", "|", "(", ")"]

def redirections : List Text :=
  [">>", ">&", ">|", ">", "<&", "<"]

def firstPart? (texts : List Text) (t : Text) : Option (Text × Text) :=
  texts.findSome? fun p => (p.isPrefixOf? t).map fun rest => (p, rest)

def redirection? (t : Text) : Option (Token × Text) :=
  let digits := t.takeWhile Char.isDigit
  (firstPart? redirections (t.dropWhile Char.isDigit)).map fun (op, rest) =>
    (.redirection (if digits.isEmpty then none else some (digits.foldl
      (fun n c => n * 10 + (c.toNat - 48)) 0)) op, rest)

def tokens : Nat → Nat → Text → List (Nat × Token)
  | 0, _, _ => []
  | _ + 1, _, [] => []
  | n + 1, line, '\n' :: rest => (line, .lineEnd) :: tokens n (line + 1) rest
  | n + 1, line, '\\' :: '\n' :: rest => tokens n (line + 1) rest
  | n + 1, line, '#' :: rest => tokens n line (rest.dropWhile (· ≠ '\n'))
  | n + 1, line, c :: rest =>
    if isSpace c then tokens n line rest
    else match redirection? (c :: rest) with
      | some (token, rest) => (line, token) :: tokens n line rest
      | none =>
        match firstPart? operators (c :: rest) with
        | some (op, rest) => (line, .operator op) :: tokens n line rest
        | none =>
          match wordParts (rest.length + 1) (c :: rest) with
          | none => [(line + rest.count '\n', .unclosed)]
          | some (w, after) =>
            let passed := (rest.take (rest.length - after.length)).count '\n'
            (line, .word w) :: tokens n (line + passed) after

def scriptTokens (script : Text) : List (Nat × Token) :=
  tokens (script.length + 1) 1 script

end Pagewright.Shell
