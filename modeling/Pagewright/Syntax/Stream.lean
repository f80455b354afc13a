import Pagewright.Syntax.Fault
import Pagewright.Syntax.Identifier

namespace Pagewright.Syntax

/-- The tokens of a text in order, and the fault that ended the reading, if one did. Indentation
opens and closes blocks; inside brackets line ends count as blanks. -/
structure Stream where
  tokens : List Token
  fault : Option Fault

structure Rest where
  text : Text
  offset : Nat

namespace Rest

/-- The next character. A line end of any kind counts as one line feed. -/
def next? : Rest → Option (Char × Rest)
  | ⟨[], _⟩ => none
  | ⟨'\r' :: '\n' :: cs, offset⟩ => some ('\n', ⟨cs, offset + 2⟩)
  | ⟨c :: cs, offset⟩ => some (if c = '\r' then '\n' else c, ⟨cs, offset + c.utf8Size⟩)

def skip (r : Rest) (n : Nat) : Rest :=
  ⟨r.text.drop n, r.offset + n⟩

end Rest

structure Indentation where
  tabs : Nat
  spaces : Nat
  deriving DecidableEq, Repr

/-- Indentations compare only if every width of a tab gives the same order. -/
def Indentation.compare (a b : Indentation) : Option Ordering :=
  if a.tabs < b.tabs then
    if a.spaces ≤ b.spaces then some .lt else none
  else if b.tabs < a.tabs then
    if b.spaces ≤ a.spaces then some .gt else none
  else some (Ord.compare a.spaces b.spaces)

/-- What stands at the start of a logical line: its indentation and the text after it. At the
end of the text there is no indentation. -/
structure Margin where
  indentation : Indentation
  rest : Rest

/-- Passes over blank lines and comments to the first character of a logical line. A form feed
starts the indentation anew. -/
def readMargin : Text → Nat → Indentation → Bool → Except Fault Margin
  | [], offset, _, _ => .ok ⟨⟨0, 0⟩, [], offset⟩
  | c :: cs, offset, own, comment =>
    if c = '\n' ∨ c = '\r' then readMargin cs (offset + 1) ⟨0, 0⟩ false
    else if comment then readMargin cs (offset + c.utf8Size) ⟨0, 0⟩ true
    else if c = ' ' then readMargin cs (offset + 1) ⟨own.tabs, own.spaces + 1⟩ false
    else if c = '\t' then
      if own.spaces ≠ 0 then .error ⟨.tabAfterSpaces, offset⟩
      else readMargin cs (offset + 1) ⟨own.tabs + 1, own.spaces⟩ false
    else if c = '#' then readMargin cs (offset + 1) ⟨0, 0⟩ true
    else if c = Char.ofNat 12 then readMargin cs (offset + 1) ⟨0, 0⟩ false
    else .ok ⟨own, c :: cs, offset⟩

/-- Closes the blocks that a line has left; the fault says that no open block fits. -/
def closeBlocks (own : Indentation) : List Indentation → Except Cause (Nat × List Indentation)
  | [] => .ok (0, [])
  | top :: below =>
    match own.compare top with
    | none => .error .mixedIndentation
    | some .eq => .ok (0, top :: below)
    | some .gt => .error .unmatchedDedent
    | some .lt => do
      let (n, kept) ← closeBlocks own below
      return (n + 1, kept)

/-- The digits of a run, underscores between them left out, and the number of characters. -/
def digitRun (isDigit : Char → Bool) : Text → Text × Nat
  | [] => ([], 0)
  | c :: cs =>
    if isDigit c then
      let (digits, n) := digitRun isDigit cs
      (c :: digits, n + 1)
    else if c = '_' ∧ cs.head?.any isDigit then
      let (digits, n) := digitRun isDigit cs
      (digits, n + 1)
    else ([], 0)

def digitValue (c : Char) : Nat :=
  let n := c.toNat
  if n < 58 then n - 48 else if n < 91 then n - 55 else n - 87

def valueIn (base : Nat) (digits : Text) : Nat :=
  digits.foldl (fun n c => n * base + digitValue c) 0

def isDigitIn (base : Nat) (c : Char) : Bool :=
  if base = 16 then c.isDigit || ('a' ≤ c && c ≤ 'f') || ('A' ≤ c && c ≤ 'F')
  else '0' ≤ c && c.toNat < 48 + base

def readBased (base : Nat) (r : Rest) : Except Fault (Token × Rest) :=
  let (digits, n) := digitRun (isDigitIn base) (r.text.drop 2)
  if digits.isEmpty then .error ⟨.noDigits, r.offset⟩
  else
    let after := r.skip (n + 2)
    .ok (⟨.int (valueIn base digits), r.offset, after.offset⟩, after)

def isExponentMark (c : Char) : Bool :=
  c = 'e' || c = 'E'

def atExponent : Text → Bool
  | e :: s :: rest =>
    isExponentMark e
      && (s.isDigit || ((s = '+' || s = '-') && rest.head?.any Char.isDigit))
  | _ => false

/-- The exponent after the fraction of a number: its value, or none where a mark has no digits,
and the text after it. -/
def readExponent (r : Rest) : Except Fault (Option Int × Rest) :=
  match r.text with
  | e :: rest =>
    if !isExponentMark e then .ok (some 0, r)
    else if rest.head? = some '_' then .error ⟨.strayUnderscore, r.offset⟩
    else
      let r := r.skip 1
      match r.text with
      | s :: rest =>
        if s = '+' ∨ s = '-' then
          if rest.head? = some '_' then .error ⟨.strayUnderscore, r.offset⟩
          else
            let (digits, n) := digitRun Char.isDigit rest
            let value : Int := valueIn 10 digits
            let value := if s = '-' then -value else value
            .ok (if digits.isEmpty then none else some value, r.skip (n + 1))
        else
          let (digits, n) := digitRun Char.isDigit (s :: rest)
          .ok (if digits.isEmpty then none else some (valueIn 10 digits : Int), r.skip n)
      | [] => .ok (none, r)
  | [] => .ok (some 0, r)

def isImaginaryMark (c : Char) : Bool :=
  c = 'j' || c = 'J'

def numberToken (start : Nat) (plain : TokenKind) (value : Number.Binary) (r : Rest) :
    Token × Rest :=
  if r.text.head?.any isImaginaryMark then
    (⟨.imaginary value, start, r.offset + 1⟩, r.skip 1)
  else (⟨plain, start, r.offset⟩, r)

def readDecimal (r : Rest) : Except Fault (Token × Rest) := do
  let (whole, n) := digitRun Char.isDigit r.text
  let after := r.skip n
  if after.text.head? = some '.' ∨ atExponent after.text then
    let (places, after) ←
      if after.text.head? = some '.' then
        if (after.text.drop 1).head? = some '_' then
          throw ⟨.strayUnderscore, after.offset⟩
        else
          let (places, n) := digitRun Char.isDigit (after.text.drop 1)
          pure (places, after.skip (n + 1))
      else pure ([], after)
    let (exponent, after) ← readExponent after
    match exponent with
    | none => throw ⟨.badFraction, after.offset⟩
    | some e =>
      let value := Number.double.ofDecimal false (valueIn 10 (whole ++ places))
        (e - places.length)
      return numberToken r.offset (.float value) value after
  else
    let value := valueIn 10 whole
    let imaginary := Number.double.ofDecimal false value 0
    if after.text.head?.any isImaginaryMark then
      return numberToken r.offset (.int value) imaginary after
    else if r.text.head? = some '0' ∧ value ≠ 0 then
      throw ⟨.leadingZeros, after.offset⟩
    else return (⟨.int value, r.offset, after.offset⟩, after)

def baseOf? (mark : Char) : Option Nat :=
  if mark = 'x' ∨ mark = 'X' then some 16
  else if mark = 'o' ∨ mark = 'O' then some 8
  else if mark = 'b' ∨ mark = 'B' then some 2
  else none

def readNumber (r : Rest) : Except Fault (Token × Rest) :=
  match r.text with
  | '0' :: mark :: _ =>
    match baseOf? mark with
    | some base => readBased base r
    | none => readDecimal r
  | _ => readDecimal r

/-- The characters of a literal up to its closing quotes, line ends unified, and what follows. -/
def readLiteralBody (quote : Char) (tripled : Bool) : Nat → Rest → Except Fault (Text × Rest)
  | 0, r => .error ⟨.endInLiteral, r.offset⟩
  | fuel + 1, r =>
    match r.next? with
    | none => .error ⟨if tripled then .openAtEnd else .endInLiteral, r.offset⟩
    | some (c, r) =>
      if c = '\\' then
        match r.next? with
        | none => readLiteralBody quote tripled fuel r
        | some (d, r) => do
          let (content, r) ← readLiteralBody quote tripled fuel r
          return (c :: d :: content, r)
      else if c = '\n' ∧ !tripled then .error ⟨.lineEndInLiteral, r.offset⟩
      else if c = quote ∧ (!tripled ∨ [quote, quote].isPrefixOf r.text) then
        .ok ([], if tripled then r.skip 2 else r)
      else do
        let (content, r) ← readLiteralBody quote tripled fuel r
        return (c :: content, r)

def readLiteral (kind : LiteralKind) (raw : Bool) (letters : Nat) (r : Rest) :
    Except Fault (Token × Rest) := do
  let inner := r.skip letters
  let quote := inner.text.headD '"'
  let tripled := [quote, quote, quote].isPrefixOf inner.text
  let body := inner.skip (if tripled then 3 else 1)
  let (content, after) ← readLiteralBody quote tripled (body.text.length + 1) body
  return (⟨.literal ⟨kind, raw, tripled, content⟩, r.offset, after.offset⟩, after)

def kindOfLetter? (c : Char) : Option (LiteralKind × Bool) :=
  match c.toLower with
  | 'r' => some (.plain, true)
  | 'f' => some (.format, false)
  | 'u' => some (.marked, false)
  | 'b' => some (.bytes, false)
  | _ => none

def kindOfLetters? (c d : Char) : Option (LiteralKind × Bool) :=
  match c.toLower, d.toLower with
  | 'r', 'f' => some (.format, true)
  | 'f', 'r' => some (.format, true)
  | 'r', 'b' => some (.bytes, true)
  | 'b', 'r' => some (.bytes, true)
  | _, _ => none

def isQuote (c : Char) : Bool :=
  c = '"' || c = '\''

/-- The letters of a literal, if one starts here: what it denotes and the number of letters. -/
def literalStart? : Text → Option (LiteralKind × Bool × Nat)
  | [] => none
  | c :: cs =>
    if isQuote c then some (.plain, false, 0)
    else match cs with
      | [] => none
      | d :: ds =>
        if isQuote d then (kindOfLetter? c).map fun (kind, raw) => (kind, raw, 1)
        else if ds.head?.any isQuote then (kindOfLetters? c d).map fun (kind, raw) => (kind, raw, 2)
        else none

def readName (r : Rest) : Token × Rest :=
  let id := r.text.takeWhile Identifier.isPart
  let stop := r.offset + Text.size id
  let kind := match Keyword.ofText? id with
    | some word => .keyword word
    | none => .name id
  (⟨kind, r.offset, stop⟩, ⟨r.text.dropWhile Identifier.isPart, stop⟩)

structure Reader where
  rest : Rest
  /-- The number of open brackets. -/
  depth : Nat
  /-- Whether a logical line starts here. -/
  atLineStart : Bool
  /-- The indentations of the open blocks, the innermost first; the module has none. -/
  blocks : List Indentation

namespace Reader

def start (t : Text) (offset : Nat) : Reader :=
  match t with
  | '\uFEFF' :: rest => ⟨⟨rest, offset + 3⟩, 0, true, []⟩
  | t => ⟨⟨t, offset⟩, 0, true, []⟩

/-- The tokens that the start of a logical line gives: one indent, or a dedent for each block
that the line has left. -/
def enterLine (s : Reader) : Except Fault (List Token × Reader) := do
  let margin ← readMargin s.rest.text s.rest.offset ⟨0, 0⟩ false
  let offset := margin.rest.offset
  let s := { s with rest := margin.rest, atLineStart := margin.rest.text.isEmpty }
  let own := margin.indentation
  let current := s.blocks.headD ⟨0, 0⟩
  match own.compare current with
  | none => throw ⟨.mixedIndentation, offset⟩
  | some .eq => return ([], s)
  | some .gt =>
    return ([⟨.indent, offset - own.spaces - own.tabs, offset⟩],
      { s with blocks := own :: s.blocks })
  | some .lt =>
    match closeBlocks own s.blocks with
    | .error cause => throw ⟨cause, offset⟩
    | .ok (n, kept) =>
      if kept.isEmpty ∧ own ≠ ⟨0, 0⟩ then throw ⟨.unmatchedDedent, offset⟩
      else return (List.replicate n ⟨.dedent, offset, offset⟩, { s with blocks := kept })

/-- An operator or a bracket, or a character that no token starts with. -/
def readSymbol (s : Reader) (c : Char) : Except Fault (List Token × Reader) :=
  match Operator.leading? s.rest.text with
  | some (o, text) =>
    let after : Rest := ⟨text, s.rest.offset + o.text.length⟩
    let token : Token := ⟨.operator o, s.rest.offset, after.offset⟩
    if o.opens then .ok ([token], { s with rest := after, depth := s.depth + 1 })
    else if o.closes then
      if s.depth = 0 then .error ⟨.unopenedBracket, after.offset⟩
      else .ok ([token], { s with rest := after, depth := s.depth - 1 })
    else .ok ([token], { s with rest := after })
  | none =>
    if c = '!' then .error ⟨.unknownCharacter c, s.rest.offset⟩
    else if Identifier.isPicture c then
      let stop := s.rest.offset + c.utf8Size
      .ok ([⟨.name [c], s.rest.offset, stop⟩], { s with rest := ⟨s.rest.text.drop 1, stop⟩ })
    else .error ⟨.unknownCharacter c, s.rest.offset + c.utf8Size⟩

def isInnerBlank (c : Char) : Bool :=
  c = ' ' || c = '\t' || c = Char.ofNat 12

def continueLine (s : Reader) : Except Fault (List Token × Reader) :=
  let after := s.rest.skip 1
  match after.next? with
  | some ('\n', r) =>
    if r.text.isEmpty then .error ⟨.openAtEnd, r.offset⟩ else .ok ([], { s with rest := r })
  | _ => .error ⟨.strayContinuation, after.offset⟩

def readInLine (s : Reader) (c : Char) : Except Fault (List Token × Reader) :=
  match literalStart? s.rest.text with
  | some (kind, raw, letters) => do
    let (token, rest) ← readLiteral kind raw letters s.rest
    return ([token], { s with rest })
  | none =>
    if Identifier.isStart c then
      let (token, rest) := readName s.rest
      .ok ([token], { s with rest })
    else if c.isDigit ∨ (c = '.' ∧ (s.rest.text.drop 1).head?.any Char.isDigit) then do
      let (token, rest) ← readNumber s.rest
      return ([token], { s with rest })
    else if c = '#' then
      let comment := s.rest.text.takeWhile fun c => c ≠ '\n' && c ≠ '\r'
      let rest : Rest := ⟨s.rest.text.drop comment.length, s.rest.offset + Text.size comment⟩
      .ok ([], { s with rest })
    else if c = '\n' ∨ c = '\r' then
      match s.rest.next? with
      | none => .ok ([], s)
      | some (_, rest) =>
        if s.depth = 0 then
          .ok ([⟨.newline, s.rest.offset, rest.offset⟩], { s with rest, atLineStart := true })
        else .ok ([], { s with rest })
    else if isInnerBlank c then
      let n := (s.rest.text.takeWhile isInnerBlank).length
      .ok ([], { s with rest := s.rest.skip n })
    else if c = '\\' then s.continueLine
    else s.readSymbol c

/-- The tokens after the last character: the line and all blocks end there. -/
def finish (s : Reader) : Stream :=
  let offset := s.rest.offset
  if s.depth ≠ 0 then ⟨[], some ⟨.openAtEnd, offset⟩⟩
  else
    let line : List Token := if s.atLineStart then [] else [⟨.newline, offset, offset⟩]
    ⟨line ++ List.replicate s.blocks.length ⟨.dedent, offset, offset⟩, none⟩

/-- Reads all tokens. A fault of the first token of a line comes before the indents and dedents
of that line. -/
def run : Nat → Reader → Stream
  | 0, s => ⟨[], some ⟨.openAtEnd, s.rest.offset⟩⟩
  | fuel + 1, s =>
    match (if s.atLineStart then s.enterLine else .ok ([], s)) with
    | .error f => ⟨[], some f⟩
    | .ok (margin, s) =>
      match s.rest.text with
      | [] =>
        let last := s.finish
        ⟨margin ++ last.tokens, last.fault⟩
      | c :: _ =>
        match s.readInLine c with
        | .error f => ⟨[], some f⟩
        | .ok (tokens, s) =>
          let later := run fuel s
          ⟨margin ++ tokens ++ later.tokens, later.fault⟩

end Reader

/-- Whether the words `match` and `case` start a statement: a colon outside brackets follows, not
at once, and not one that belongs to a `lambda`. -/
def headsBlock : List Token → Bool → Bool → Int → Bool
  | [], _, _, _ => false
  | t :: ts, first, pendingLambda, depth =>
    match t.kind with
    | .newline => false
    | .keyword .lambdaWord => headsBlock ts false (pendingLambda || depth = 0) depth
    | .operator .colon =>
      if depth = 0 then
        if pendingLambda then headsBlock ts false false depth
        else if first then headsBlock ts false false depth
        else true
      else headsBlock ts false pendingLambda depth
    | .operator o =>
      let depth := if o.opens then depth + 1 else if o.closes then depth - 1 else depth
      headsBlock ts false pendingLambda depth
    | _ => headsBlock ts false pendingLambda depth

def reachesEqual : List Token → Int → Bool
  | [], _ => false
  | t :: ts, depth =>
    match t.kind with
    | .newline => false
    | .operator .equal => if depth = 0 then true else reachesEqual ts depth
    | .operator .leftBracket => reachesEqual ts (depth + 1)
    | .operator .rightBracket => reachesEqual ts (depth - 1)
    | _ => if 0 < depth then reachesEqual ts depth else false

/-- Whether the word `type` starts an alias: a name follows and then an equals sign. -/
def headsAlias : List Token → Bool
  | [] => false
  | t :: ts =>
    match t.kind with
    | .name _ | .keyword .matchWord | .keyword .caseWord | .keyword .typeWord => reachesEqual ts 0
    | _ => false

/-- Makes names of the words `match`, `case` and `type` where they start no statement. -/
def soften : Bool → List Token → List Token
  | _, [] => []
  | lineStart, t :: ts =>
    let kind := match t.kind with
      | .keyword .matchWord | .keyword .caseWord =>
        if lineStart && headsBlock ts true false 0 then t.kind
        else match t.kind with
          | .keyword word => .name word.text
          | kind => kind
      | .keyword .typeWord =>
        if lineStart && headsAlias ts then t.kind else .name Keyword.typeWord.text
      | kind => kind
    let starts := kind = .newline || kind = .indent || kind = .dedent
    { t with kind } :: soften starts ts

/-- The tokens of a text that starts at an offset. Where it is no module but an expression, no
line of it starts a statement. -/
def Stream.ofText (t : Text) (offset : Nat) (isModule : Bool) : Stream :=
  let s := (Reader.start t offset).run (t.length + 2)
  { s with tokens := soften isModule s.tokens }

end Pagewright.Syntax
