import Pagewright.Host.Word

namespace Pagewright.Shell

structure Redirection where
  stream : Nat
  operator : Text
  target : Word
  deriving DecidableEq, Repr

inductive Command where
  | nothing
  | simple (line : Nat) (assignments : List (Text × Word)) (words : List Word)
  | redirected (line : Nat) (redirections : List Redirection) (body : Command)
  | pipe (left right : Command)
  | both (left right : Command)
  | either (left right : Command)
  | negated (body : Command)
  | sequence (first next : Command)
  | each (name : Text) (words : Option (List Word)) (body : Command)
  | choice (condition yes no : Command)
  | nested (body : Command)
  deriving Repr

structure ScriptFault where
  line : Nat
  message : Text
  deriving DecidableEq, Repr

abbrev Tokens := List (Nat × Token)

def plain? : Word → Option Text
  | [] => some []
  | .literal t false :: w => (plain? w).map (t ++ ·)
  | _ => none

def lineOf (last : Nat) : Tokens → Nat
  | [] => last
  | (line, _) :: _ => line

def expecting (word : Option Text) : Text :=
  match word with
  | some w => " (expecting \"".toList ++ w ++ "\")".toList
  | none => []

def unexpected (last : Nat) (wanted : Option Text) : Tokens → ScriptFault
  | [] => ⟨last, "end of file unexpected".toList ++ expecting wanted⟩
  | (line, .unclosed) :: _ => ⟨line, "Unterminated quoted string"⟩
  | (line, .lineEnd) :: _ => ⟨line, "newline unexpected".toList ++ expecting wanted⟩
  | (line, .operator t) :: _ =>
    ⟨line, ['"'] ++ t ++ "\" unexpected".toList ++ expecting wanted⟩
  | (line, .redirection _ _) :: _ => ⟨line, "redirection unexpected".toList ++ expecting wanted⟩
  | (line, .word w) :: _ =>
    match plain? w with
    | some t =>
      if ["then", "do", "done", "fi", "else", "elif", "\x7d"].contains (String.ofList t) then
        ⟨line, ['"'] ++ t ++ "\" unexpected".toList ++ expecting wanted⟩
      else ⟨line, "word unexpected".toList ++ expecting wanted⟩
    | none => ⟨line, "word unexpected".toList ++ expecting wanted⟩

def keyword? : Tokens → Option Text
  | (_, .word w) :: _ => plain? w
  | _ => none

def skipLines : Tokens → Tokens
  | (_, .lineEnd) :: rest => skipLines rest
  | tokens => tokens

def closers : List Text :=
  ["then", "do", "done", "fi", "else", "elif", "\x7d"]

def isClosed (tokens : Tokens) : Bool :=
  match tokens with
  | [] => true
  | (_, .operator t) :: _ => t = [')'] || t = [';', ';']
  | tokens => (keyword? tokens).any closers.contains

def assignment? : Word → Option (Text × Word)
  | .literal t false :: w =>
    if t.all isNamePart && t.head?.any isNameStart then
      match w with
      | .literal ('=' :: value) false :: w => some (t, .literal value false :: w)
      | _ => none
    else none
  | _ => none

def standardStream (operator : Text) : Nat :=
  if operator.head? = some '<' then 0 else 1

structure Simple where
  assignments : List (Text × Word)
  words : List Word
  redirections : List Redirection

def simpleParts (last : Nat) : Simple → Tokens → Except ScriptFault (Simple × Tokens)
  | s, (_, .word w) :: rest =>
    match if s.words.isEmpty then assignment? w else none with
    | some a => simpleParts last { s with assignments := s.assignments ++ [a] } rest
    | none => simpleParts last { s with words := s.words ++ [w] } rest
  | s, (_, .redirection stream op) :: (_, .word w) :: rest =>
    simpleParts last { s with
      redirections := s.redirections ++ [⟨stream.getD (standardStream op), op, w⟩] } rest
  | _, (_, .redirection _ _) :: rest => .error (unexpected last none rest)
  | _, (line, .unclosed) :: rest => .error (unexpected last none ((line, .unclosed) :: rest))
  | s, tokens => .ok (s, tokens)

def redirectionsAfter (last : Nat) : Tokens → Except ScriptFault (List Redirection × Tokens)
  | (_, .redirection stream op) :: (_, .word w) :: rest => do
    let (rs, rest) ← redirectionsAfter last rest
    return (⟨stream.getD (standardStream op), op, w⟩ :: rs, rest)
  | (_, .redirection _ _) :: rest => .error (unexpected last none rest)
  | tokens => .ok ([], tokens)

def withRedirections (line : Nat) (rs : List Redirection) (body : Command) : Command :=
  if rs.isEmpty then body else .redirected line rs body

def expect (last : Nat) (word : Text) (tokens : Tokens) : Except ScriptFault Tokens :=
  if keyword? tokens = some word then .ok (tokens.drop 1)
  else .error (unexpected last (some word) tokens)

def valueWords : Tokens → List Word × Tokens
  | (_, .word w) :: rest =>
    let (ws, rest) := valueWords rest
    (w :: ws, rest)
  | tokens => ([], tokens)

def skipSeparator : Tokens → Tokens
  | (line, .operator t) :: rest =>
    if t = [';'] then skipLines rest else (line, .operator t) :: rest
  | tokens => skipLines tokens

mutual

def commandList (last : Nat) : Nat → Tokens → Except ScriptFault (Command × Tokens)
  | 0, tokens => .error (unexpected last none tokens)
  | n + 1, tokens =>
    let tokens := skipLines tokens
    if isClosed tokens then .ok (.nothing, tokens)
    else do
      let (first, rest) ← conditional last n tokens
      match rest with
      | (_, .operator t) :: more =>
        if t = [';'] || t = ['&'] then do
          let (next, rest) ← commandList last n more
          return (.sequence first next, rest)
        else return (first, rest)
      | (_, .lineEnd) :: more => do
        let (next, rest) ← commandList last n more
        return (.sequence first next, rest)
      | rest => return (first, rest)

def conditional (last : Nat) : Nat → Tokens → Except ScriptFault (Command × Tokens)
  | 0, tokens => .error (unexpected last none tokens)
  | n + 1, tokens => do
    let (first, rest) ← pipeline last n tokens
    conditionalAfter last n first rest

def conditionalAfter (last : Nat) : Nat → Command → Tokens → Except ScriptFault (Command × Tokens)
  | 0, first, tokens => .ok (first, tokens)
  | n + 1, first, (line, .operator t) :: rest =>
    if t = ['&', '&'] then do
      let (next, rest) ← pipeline last n (skipLines rest)
      conditionalAfter last n (.both first next) rest
    else if t = ['|', '|'] then do
      let (next, rest) ← pipeline last n (skipLines rest)
      conditionalAfter last n (.either first next) rest
    else .ok (first, (line, .operator t) :: rest)
  | _ + 1, first, tokens => .ok (first, tokens)

def pipeline (last : Nat) : Nat → Tokens → Except ScriptFault (Command × Tokens)
  | 0, tokens => .error (unexpected last none tokens)
  | n + 1, tokens =>
    if keyword? tokens = some ['!'] then do
      let (body, rest) ← pipeline last n (tokens.drop 1)
      return (.negated body, rest)
    else do
      let (first, rest) ← command last n tokens
      match rest with
      | (line, .operator t) :: more =>
        if t = ['|'] then do
          let (next, rest) ← pipeline last n (skipLines more)
          return (.pipe first next, rest)
        else return (first, (line, .operator t) :: more)
      | rest => return (first, rest)

def command (last : Nat) : Nat → Tokens → Except ScriptFault (Command × Tokens)
  | 0, tokens => .error (unexpected last none tokens)
  | n + 1, tokens =>
    let line := lineOf last tokens
    match tokens with
    | (_, .operator ['(']) :: rest => do
      let (body, rest) ← commandList last n rest
      match rest with
      | (_, .operator [')']) :: rest => do
        let (rs, rest) ← redirectionsAfter last rest
        return (withRedirections line rs (.nested body), rest)
      | rest => throw (unexpected last (some [')']) rest)
    | tokens =>
      match (keyword? tokens).map String.ofList with
      | some "\x7b" => do
        let (body, rest) ← commandList last n (tokens.drop 1)
        let rest ← expect last ['\x7d'] rest
        let (rs, rest) ← redirectionsAfter last rest
        return (withRedirections line rs body, rest)
      | some "if" => do
        let (body, rest) ← branches last n (tokens.drop 1)
        let (rs, rest) ← redirectionsAfter last rest
        return (withRedirections line rs body, rest)
      | some "for" => do
        let (body, rest) ← forLoop last n (tokens.drop 1)
        let (rs, rest) ← redirectionsAfter last rest
        return (withRedirections line rs body, rest)
      | _ =>
        if isClosed tokens then throw (unexpected last none tokens)
        else do
          let (s, rest) ← simpleParts last ⟨[], [], []⟩ tokens
          if s.words.isEmpty && s.assignments.isEmpty && s.redirections.isEmpty then
            throw (unexpected last none tokens)
          return (withRedirections line s.redirections (.simple line s.assignments s.words), rest)

def branches (last : Nat) : Nat → Tokens → Except ScriptFault (Command × Tokens)
  | 0, tokens => .error (unexpected last none tokens)
  | n + 1, tokens => do
    let (condition, rest) ← commandList last n tokens
    let rest ← expect last "then" rest
    let (yes, rest) ← commandList last n rest
    match (keyword? rest).map String.ofList with
    | some "elif" => do
      let (no, rest) ← branches last n (rest.drop 1)
      return (.choice condition yes no, rest)
    | some "else" => do
      let (no, rest) ← commandList last n (rest.drop 1)
      let rest ← expect last "fi" rest
      return (.choice condition yes no, rest)
    | _ => do
      let rest ← expect last "fi" rest
      return (.choice condition yes .nothing, rest)

def forLoop (last : Nat) : Nat → Tokens → Except ScriptFault (Command × Tokens)
  | 0, tokens => .error (unexpected last none tokens)
  | n + 1, tokens =>
    match keyword? tokens with
    | none => .error (unexpected last none tokens)
    | some name => do
      let rest := skipSeparator (tokens.drop 1)
      let (words, rest) := if keyword? rest = some "in".toList then
          let (ws, rest) := valueWords (rest.drop 1)
          (some ws, skipSeparator rest)
        else (none, rest)
      let rest ← expect last "do" rest
      let (body, rest) ← commandList last n rest
      let rest ← expect last "done" rest
      return (.each name words body, rest)

end

/-- Reads the commands of one line, which may go on over further lines where it has to. A script is
read line by line, so that what stands before a fault is still run. -/
def completeCommand (last : Nat) : Nat → Tokens → Except ScriptFault (Command × Tokens)
  | 0, tokens => .error (unexpected last none tokens)
  | n + 1, tokens => do
    let (first, rest) ← conditional last (10 * tokens.length + 10) tokens
    match rest with
    | [] => return (first, [])
    | (_, .lineEnd) :: rest => return (first, rest)
    | (line, .operator t) :: rest =>
      if t = [';'] || t = ['&'] then
        match rest with
        | [] => return (first, [])
        | (_, .lineEnd) :: rest => return (first, rest)
        | rest => do
          let (next, rest) ← completeCommand last n rest
          return (.sequence first next, rest)
      else throw (unexpected last none ((line, .operator t) :: rest))
    | rest => throw (unexpected last none rest)

end Pagewright.Shell
