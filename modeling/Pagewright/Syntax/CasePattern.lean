import Pagewright.Syntax.Expression

namespace Pagewright.Syntax

open Syntax.Parser

namespace Pattern

def starts : TokenKind → Bool
  | .name _ | .int _ | .float _ | .imaginary _ | .literal _ => true
  | .keyword w => [.noneWord, .trueWord, .falseWord].contains w
  | .operator o => [.leftParen, .leftBracket, .leftBrace, .minus, .star].contains o
  | _ => false

def singleton? : TokenKind → Option Constant
  | .keyword .noneWord => some .none
  | .keyword .trueWord => some (.bool true)
  | .keyword .falseWord => some (.bool false)
  | _ => none

def isNumber : TokenKind → Bool
  | .int _ | .float _ | .imaginary _ => true
  | _ => false

def number : Parser Expr := do
  let start ← here
  if ← nextIs isNumber then
    match (← kind?).bind Expression.constant? with
    | some c =>
      take
      return .constant (← spanFrom start) c
    | none => unexpected
  else unexpected

def signedNumber : Parser Expr := do
  let start ← here
  let left ← if ← acceptSymbol .minus then
      let value ← number
      pure (.unary (← spanFrom start) .negative value)
    else number
  if ← acceptSymbol .plus then
    let right ← number
    return .binary (← spanFrom start) left .add right
  else if ← acceptSymbol .minus then
    let right ← number
    return .binary (← spanFrom start) left .subtract right
  else return left

def dotted (start : Nat) : Nat → Expr → Parser Expr
  | 0, e => return e
  | fuel + 1, e => do
    if ← acceptSymbol .dot then
      let name ← identifier
      dotted start fuel (.attribute (← spanFrom start) e name)
    else return e

def wildcard : Text := "_"

def captured (name : Text) : Option Text :=
  if name = wildcard then none else some name

/-- Items up to a closing bracket, which is not taken, with a comma after each but perhaps the
last; whether there was a comma. -/
def itemsUpTo (item : Parser Pattern) : Nat → Parser (List Pattern × Bool)
  | 0 => return ([], false)
  | fuel + 1 => do
    if ← nextIs starts then
      let p ← item
      if ← acceptSymbol .comma then
        let (ps, _) ← itemsUpTo item fuel
        return (p :: ps, true)
      else return ([p], false)
    else return ([], false)

def recordItems (item : Parser Pattern) :
    Nat → Bool → Parser (List Pattern × List (Text × Pattern))
  | 0, _ => return ([], [])
  | fuel + 1, anyNamed => do
    if ← nextIs starts then
      if anyNamed || (← Expression.isKeywordNext) then
        let name ← identifier
        expectSymbol .equal
        let p ← item
        if ← acceptSymbol .comma then
          let (ps, named) ← recordItems item fuel true
          return (ps, (name, p) :: named)
        else return ([], [(name, p)])
      else
        let p ← item
        if ← acceptSymbol .comma then
          let (ps, named) ← recordItems item fuel false
          return (p :: ps, named)
        else return ([p], [])
    else return ([], [])

def mappingKey (g : Grammar) : Parser Expr := do
  let start ← here
  match ← kind? with
  | some (.literal _) => Expression.literals g
  | some (.name id) =>
    take
    let head : Expr := .name (← spanFrom start) id
    if ← isSymbolNext .dot then dotted start g.fuel head else unexpected
  | some k =>
    match singleton? k with
    | some c =>
      take
      return .constant (← spanFrom start) c
    | none => signedNumber
  | none => unexpected

/-- The entries of a mapping pattern and the name for the rest, which comes last. -/
def mappingItems (g : Grammar) (item : Parser Pattern) :
    Nat → Parser (List (Expr × Pattern) × Option Text)
  | 0 => return ([], none)
  | fuel + 1 => do
    if ← acceptSymbol .doubleStar then
      let name ← identifier
      let _ ← acceptSymbol .comma
      return ([], some name)
    else if ← isSymbolNext .rightBrace then return ([], none)
    else
      let key ← mappingKey g
      expectSymbol .colon
      let p ← item
      if ← acceptSymbol .comma then
        let (entries, rest) ← mappingItems g item fuel
        return ((key, p) :: entries, rest)
      else return ([(key, p)], none)

/-- A name: a capture, a value by its attributes, or a class with its arguments. -/
def afterName (g : Grammar) (item : Parser Pattern) (start : Nat) (id : Text) :
    Parser Pattern := do
  let head : Expr := .name (← spanFrom start) id
  let isDotted ← isSymbolNext .dot
  let callee ← dotted start g.fuel head
  if ← acceptSymbol .leftParen then
    let (ps, named) ← recordItems item g.fuel false
    expectSymbol .rightParen
    return .record (← spanFrom start) callee ps named
  else if isDotted then return .value (← spanFrom start) callee
  else return .capture (← spanFrom start) (captured id)

def closed (g : Grammar) (item : Parser Pattern) : Parser Pattern := do
  let start ← here
  match ← kind? with
  | some (.literal _) =>
    let e ← Expression.literals g
    return .value (← spanFrom start) e
  | some (.name id) =>
    take
    afterName g item start id
  | some (.operator .star) =>
    take
    let name ← identifier
    return .star (← spanFrom start) (captured name)
  | some (.operator .leftParen) =>
    take
    match ← itemsUpTo item g.fuel with
    | ([p], false) =>
      expectSymbol .rightParen
      return p
    | (ps, _) =>
      expectSymbol .rightParen
      return .sequence (← spanFrom start) ps
  | some (.operator .leftBracket) =>
    take
    let (ps, _) ← itemsUpTo item g.fuel
    expectSymbol .rightBracket
    return .sequence (← spanFrom start) ps
  | some (.operator .leftBrace) =>
    take
    let (entries, rest) ← mappingItems g item g.fuel
    expectSymbol .rightBrace
    return .mapping (← spanFrom start) entries rest
  | some k =>
    match singleton? k with
    | some c =>
      take
      return .singleton (← spanFrom start) c
    | none =>
      let e ← signedNumber
      return .value (← spanFrom start) e
  | none => unexpected

/-- Alternatives, and perhaps a name for what matched; the wildcard is no name. -/
def whole (g : Grammar) (item : Parser Pattern) : Parser Pattern := do
  let start ← here
  let first ← closed g item
  let rest ← manyWhile (acceptSymbol .bar) (closed g item) g.fuel
  let p ← if rest.isEmpty then pure first
    else pure (.anyOf (← spanFrom start) (first :: rest))
  if ← acceptWord .asWord then
    let name ← identifier
    if name = wildcard then hold ⟨.wildcardTarget, start⟩
    return .alias (← spanFrom start) p name
  else return p

def level (g : Grammar) : Nat → Parser Pattern
  | 0 => unexpected
  | n + 1 => fun c => whole g (level g n) c

def ofCase (g : Grammar) : Parser Pattern := do
  let start ← here
  match ← items g.fuel starts (level g g.fuel) with
  | ([p], false) => return p
  | (ps, _) => return .sequence (← spanFrom start) ps

end Pattern
end Pagewright.Syntax
