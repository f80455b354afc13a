import Pagewright.Syntax.Stream
import Pagewright.Syntax.Tree
import Pagewright.Text.Blank
import Pagewright.Text.CharacterNames

namespace Pagewright.Syntax.LiteralValue

abbrev FieldReader := Text → Nat → Except Cause Expr

def isOctal (c : Char) : Bool :=
  '0' ≤ c && c ≤ '7'

def readOctal (r : Rest) : Char × Rest :=
  let digits := (r.text.take 3).takeWhile isOctal
  (Char.ofNat (valueIn 8 digits), r.skip digits.length)

/-- A character by a fixed number of hexadecimal digits. A surrogate gives the replacement
character. -/
def readCode (count : Nat) (r : Rest) : Except Fault (Char × Rest) :=
  let digits := r.text.take count
  let code := valueIn 16 digits
  if digits.length < count ∨ !digits.all (isDigitIn 16) ∨ 0x10FFFF < code then
    .error ⟨.badCharacterEscape, r.offset⟩
  else if 0xD800 ≤ code ∧ code < 0xE000 then .ok ('\uFFFD', r.skip count)
  else .ok (Char.ofNat code, r.skip count)

def nameBound : Nat := 88

def readNamed (names : NameTable) (r : Rest) : Except Fault (Char × Rest) :=
  match r.text with
  | '\x7b' :: rest =>
    let name := rest.takeWhile (· ≠ '\x7d')
    let stop := r.offset + 1 + Text.size name
    match rest.drop name.length with
    | [] => .error ⟨.endInLiteral, stop⟩
    | _ :: after =>
      if nameBound < Text.size name then .error ⟨.badCharacterEscape, stop + 1⟩
      else
        match names name with
        | some c => .ok (c, ⟨after, stop + 1⟩)
        | none => .error ⟨.badCharacterEscape, r.offset + 1⟩
  | _ => .error ⟨.endInLiteral, r.offset⟩

def simpleEscape? (c : Char) : Option Char :=
  match c with
  | '\\' => some '\\'
  | '\'' => some '\''
  | '"' => some '"'
  | 'a' => some (Char.ofNat 7)
  | 'b' => some (Char.ofNat 8)
  | 'f' => some (Char.ofNat 12)
  | 'n' => some '\n'
  | 'r' => some '\r'
  | 't' => some '\t'
  | 'v' => some (Char.ofNat 11)
  | _ => none

/-- What follows a backslash. An escaped line end denotes nothing; an unknown escape keeps its
backslash. -/
def readEscape (names : NameTable) (isBytes : Bool) (r : Rest) : Except Fault (Text × Rest) :=
  match r.next? with
  | none => .error ⟨.endInLiteral, r.offset⟩
  | some (c, after) =>
    let single (p : Char × Rest) : Text × Rest := ([p.1], p.2)
    if let some d := simpleEscape? c then .ok ([d], after)
    else if isOctal c then .ok (single (readOctal r))
    else if c = 'x' then (readCode 2 after).map single
    else if c = 'u' ∧ !isBytes then (readCode 4 after).map single
    else if c = 'U' ∧ !isBytes then (readCode 8 after).map single
    else if c = 'N' ∧ !isBytes then (readNamed names after).map single
    else if c = '\n' then .ok ([], after)
    else if isBytes ∧ 128 ≤ c.toNat then .error ⟨.nonAsciiBytes, after.offset⟩
    else .ok (['\\', c], after)

def readPlain (names : NameTable) (raw isBytes : Bool) : Nat → Rest → Except Fault Text
  | 0, _ => .ok []
  | fuel + 1, r =>
    match r.next? with
    | none => .ok []
    | some (c, after) =>
      if c = '\\' ∧ !raw then do
        let (cs, after) ← readEscape names isBytes after
        return cs ++ (← readPlain names raw isBytes fuel after)
      else if isBytes ∧ 128 ≤ c.toNat then .error ⟨.nonAsciiBytes, after.offset⟩
      else do
        return c :: (← readPlain names raw isBytes fuel after)

/-- A format field that is being read: its expression so far, the open brackets in it, and the
parts after the expression. -/
structure FieldState where
  expression : Text
  brackets : List Char
  conversion : Option Char
  spec : Option (List Expr)
  /-- Whether an equals sign after the expression asks to show it. -/
  showsItself : Bool
  trailing : Text

def FieldState.start : FieldState :=
  ⟨[], [], none, none, false, []⟩

def FieldState.push (s : FieldState) (c : Char) : FieldState :=
  { s with expression := s.expression ++ [c] }

def FieldState.close (s : FieldState) (opened closed : Char) (offset : Nat) :
    Except Fault FieldState :=
  match s.brackets with
  | [] => .error ⟨.fieldUnopened closed, offset⟩
  | b :: bs =>
    if b = opened then .ok { s.push closed with brackets := bs }
    else .error ⟨.fieldMismatch b closed, offset⟩

def readQuoted (quote : Char) : Nat → Rest → Except Fault (Text × Rest)
  | 0, r => .error ⟨.fieldUnterminated, r.offset⟩
  | fuel + 1, r =>
    match r.next? with
    | none => .error ⟨.fieldUnterminated, r.offset⟩
    | some (c, after) =>
      if c = quote then .ok ([c], after)
      else do
        let (cs, after) ← readQuoted quote fuel after
        return (c :: cs, after)

/-- The letter after an exclamation mark; the field must end or its format follow. -/
def readConversion (r : Rest) : Except Fault (Char × Rest) :=
  match r.next? with
  | none => .error ⟨.fieldUnclosed, r.offset⟩
  | some (c, after) =>
    if c = 's' ∨ c = 'a' ∨ c = 'r' then
      if after.text.head? = some '\x7d' ∨ after.text.head? = some ':' then .ok (c, after)
      else .error ⟨.fieldUnclosed, after.offset⟩
    else .error ⟨.fieldConversion, after.offset⟩

/-- The pieces of a finished field. One that shows itself is preceded by its own text. -/
def FieldState.finish (s : FieldState) (field : FieldReader) (offset stop : Nat) :
    Except Fault (List Expr) :=
  match field s.expression offset with
  | .error cause => .error ⟨.inField cause, offset⟩
  | .ok value =>
    let span : Span := ⟨offset, stop⟩
    let spec := s.spec.map fun pieces => Expr.joined span pieces
    if s.showsItself then
      let conversion := if s.conversion.isNone && s.spec.isNone then some 'r' else s.conversion
      .ok [.constant span (.text (s.expression ++ ['='])), .constant span (.text s.trailing),
        .field span value conversion spec]
    else .ok [.field span value s.conversion spec]

mutual

/-- The pieces of a format literal: texts and fields. Inside the format of a field, `depth` is
positive and a closing brace ends the pieces. A backslash escapes no brace. -/
def readPieces (names : NameTable) (field : FieldReader) (raw : Bool) (depth : Nat) :
    Nat → Text → Rest → Except Fault (List Expr × Rest)
  | 0, _, r => .error ⟨.fieldUnclosed, r.offset⟩
  | fuel + 1, text, r =>
    let flush (later : List Expr) : List Expr :=
      if text.isEmpty then later else .constant ⟨r.offset, r.offset⟩ (.text text) :: later
    match r.next? with
    | none => .ok (flush [], r)
    | some (c, after) =>
      if c = '\x7b' then
        if depth = 0 ∧ after.text.head? = some '\x7b' then
          readPieces names field raw depth fuel (text ++ [c]) (after.skip 1)
        else if depth = 0 ∧ after.text.isEmpty then .error ⟨.fieldUnclosed, after.offset⟩
        else do
          let (pieces, after) ←
            readField names field raw depth after.offset fuel FieldState.start after
          let (later, after) ← readPieces names field raw depth fuel [] after
          return (flush (pieces ++ later), after)
      else if c = '\x7d' then
        if 0 < depth then .ok (flush [], r)
        else if after.text.head? = some '\x7d' then
          readPieces names field raw depth fuel (text ++ [c]) (after.skip 1)
        else .error ⟨.fieldBraceAlone, after.offset⟩
      else if c = '\\' ∧ !raw then
        if after.text.head? = some '\x7b' ∨ after.text.head? = some '\x7d' then
          readPieces names field raw depth fuel (text ++ [c]) after
        else do
          let (cs, after) ← readEscape names false after
          readPieces names field raw depth fuel (text ++ cs) after
      else readPieces names field raw depth fuel (text ++ [c]) after

/-- The rest of a field that started at `offset`, up to its closing brace. -/
def readField (names : NameTable) (field : FieldReader) (raw : Bool) (depth offset : Nat) :
    Nat → FieldState → Rest → Except Fault (List Expr × Rest)
  | 0, _, r => .error ⟨.fieldUnclosed, r.offset⟩
  | fuel + 1, s, r =>
    let isEmpty := Text.isAllBlank s.expression
    match r.next? with
    | none => .error ⟨if isEmpty then .fieldEmpty else .fieldUnclosed, r.offset⟩
    | some (c, after) =>
      let follows (d : Char) : Bool := after.text.head? = some d
      if (c = '!' ∨ c = '=' ∨ c = '<' ∨ c = '>') ∧ follows '=' then
        readField names field raw depth offset fuel ((s.push c).push '=') (after.skip 1)
      else if c = '!' ∧ s.brackets.isEmpty then
        if isEmpty then .error ⟨.fieldEmpty, after.offset⟩
        else do
          let (conversion, after) ← readConversion after
          readField names field raw depth offset fuel { s with conversion := some conversion } after
      else if c = '=' ∧ s.brackets.isEmpty then
        readField names field raw depth offset fuel { s with showsItself := true } after
      else if c = ':' ∧ s.brackets.isEmpty then do
        let (pieces, after) ← readSpec names field raw depth fuel [] after
        readField names field raw depth offset fuel { s with spec := some pieces } after
      else if c = '(' ∨ c = '[' ∨ c = '\x7b' then
        readField names field raw depth offset fuel
          { s.push c with brackets := c :: s.brackets } after
      else if c = ')' then do
        readField names field raw depth offset fuel (← s.close '(' c after.offset) after
      else if c = ']' then do
        readField names field raw depth offset fuel (← s.close '[' c after.offset) after
      else if c = '\x7d' then
        if !s.brackets.isEmpty then do
          readField names field raw depth offset fuel (← s.close '\x7b' c after.offset) after
        else if isEmpty then .error ⟨.fieldEmpty, after.offset⟩
        else do
          return (← s.finish field offset after.offset, after)
      else if isQuote c then do
        let (quoted, after) ← readQuoted c (after.text.length + 1) after
        readField names field raw depth offset fuel
          { s with expression := s.expression ++ c :: quoted } after
      else if c = ' ' ∧ s.showsItself then
        readField names field raw depth offset fuel { s with trailing := s.trailing ++ [c] } after
      else if c = '\\' then .error ⟨.fieldUnterminated, after.offset⟩
      else if s.showsItself then .error ⟨.fieldUnclosed, after.offset⟩
      else readField names field raw depth offset fuel (s.push c) after

/-- The format of a field, up to the brace that closes the field. Its own fields have none. -/
def readSpec (names : NameTable) (field : FieldReader) (raw : Bool) (depth : Nat) :
    Nat → Text → Rest → Except Fault (List Expr × Rest)
  | 0, _, r => .error ⟨.fieldUnclosed, r.offset⟩
  | fuel + 1, text, r =>
    let flush (later : List Expr) : List Expr :=
      if text.isEmpty then later else .constant ⟨r.offset, r.offset⟩ (.text text) :: later
    match r.next? with
    | none => .ok (flush [], r)
    | some (c, after) =>
      if c = '\x7b' then
        if 1 ≤ depth then .error ⟨.fieldTooDeep, r.offset⟩
        else do
          let (pieces, after) ← readPieces names field raw (depth + 1) fuel [] r
          let (later, after) ← readSpec names field raw depth fuel [] after
          return (flush (pieces ++ later), after)
      else if c = '\x7d' then .ok (flush [], r)
      else readSpec names field raw depth fuel (text ++ [c]) after

end

def joinTexts : List Expr → List Expr
  | .constant s (.text a) :: rest =>
    match joinTexts rest with
    | .constant _ (.text b) :: later => .constant s (.text (a ++ b)) :: later
    | later => .constant s (.text a) :: later
  | e :: rest => e :: joinTexts rest
  | [] => []

structure Part where
  literal : Literal
  span : Span

def Part.inner (p : Part) : Rest :=
  let quotes := if p.literal.tripled then 3 else 1
  ⟨p.literal.content, p.span.start + p.literal.letters.length + quotes⟩

def Part.plainValue (names : NameTable) (p : Part) : Except Fault Text :=
  readPlain names p.literal.raw (p.literal.kind = .bytes) (p.literal.content.length + 1) p.inner

def Part.pieces (names : NameTable) (field : FieldReader) (p : Part) : Except Fault (List Expr) :=
  if p.literal.kind = .format then do
    let fuel := 2 * p.literal.content.length + 2
    let (pieces, _) ← readPieces names field p.literal.raw 0 fuel [] p.inner
    return pieces
  else do
    return [.constant p.span (.text (← p.plainValue names))]

/-- Neighbouring literals as one value. Bytes mix with nothing else, and a format literal makes
the whole a format value. -/
def ofParts (names : NameTable) (field : FieldReader) (first : Part) (rest : List Part) :
    Except Fault Expr := do
  let parts := first :: rest
  let span : Span := ⟨first.span.start, (parts.getLastD first).span.stop⟩
  if parts.all (·.literal.kind = .bytes) then
    return .constant span (.bytes (← parts.mapM (Part.plainValue names)).flatten)
  else if parts.any (·.literal.kind = .bytes) then throw ⟨.mixedLiterals, first.span.start⟩
  else if parts.any (·.literal.kind = .format) then
    return .joined span (joinTexts (← parts.mapM (Part.pieces names field)).flatten)
  else return .constant span (.text (← parts.mapM (Part.plainValue names)).flatten)

end Pagewright.Syntax.LiteralValue
