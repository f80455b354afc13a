import Pagewright.Syntax.LiteralValue

namespace Pagewright.Syntax

/-- The tokens that are still to be read, with one token of lookahead. A construct that is complete
but not allowed is held against the next token: a token that cannot follow at all is reported before
it. -/
structure Cursor where
  tokens : List Token
  /-- The fault after the last token, where no further one could be read. -/
  ending : Option Fault
  /-- Where the last token that was taken stops. -/
  stop : Nat
  /-- A fault that is raised when the next token is taken. -/
  held : Option Fault

abbrev Parser := StateT Cursor (Except Fault)

namespace Parser

def fault {α : Type} (f : Fault) : Parser α :=
  fun _ => .error f

def next? : Parser (Option Token) := fun c =>
  match c.tokens, c.ending with
  | t :: _, _ => .ok (some t, c)
  | [], some f => .error f
  | [], none => .ok (none, c)

def kind? : Parser (Option TokenKind) := do
  return (← next?).map (·.kind)

def second? : Parser (Option TokenKind) := fun c =>
  .ok ((c.tokens.drop 1).head?.map (·.kind), c)

def here : Parser Nat := do
  return ((← next?).map (·.start)).getD (← get).stop

def settle : Parser Unit := fun c =>
  match c.held with
  | some f => .error f
  | none => .ok ((), c)

def hold (f : Fault) : Parser Unit :=
  modify fun c => { c with held := c.held <|> some f }

def take : Parser Unit := do
  settle
  modify fun c =>
    match c.tokens with
    | t :: ts => { c with tokens := ts, stop := t.stop }
    | [] => c

def unexpected {α : Type} : Parser α := do
  match ← next? with
  | some t => fault ⟨.unexpected t.kind, t.start⟩
  | none => fault ⟨.unexpectedEnd, (← get).stop⟩

def accept (kind : TokenKind) : Parser Bool := do
  if (← kind?) = some kind then
    take
    return true
  else return false

def expect (kind : TokenKind) : Parser Unit := do
  if !(← accept kind) then unexpected

def acceptSymbol (o : Operator) : Parser Bool :=
  accept (.operator o)

def expectSymbol (o : Operator) : Parser Unit :=
  expect (.operator o)

def acceptWord (w : Keyword) : Parser Bool :=
  accept (.keyword w)

def expectWord (w : Keyword) : Parser Unit :=
  expect (.keyword w)

def isNext (kind : TokenKind) : Parser Bool := do
  return (← kind?) = some kind

def isSymbolNext (o : Operator) : Parser Bool :=
  isNext (.operator o)

def nextIs (test : TokenKind → Bool) : Parser Bool := do
  return (← kind?).any test

def identifier : Parser Text := do
  match ← kind? with
  | some (.name id) =>
    take
    return id
  | _ => unexpected

def spanFrom (start : Nat) : Parser Span := do
  return ⟨start, (← get).stop⟩

def manyWhile {α : Type} (more : Parser Bool) (item : Parser α) : Nat → Parser (List α)
  | 0 => return []
  | fuel + 1 => do
    if ← more then
      let x ← item
      return x :: (← manyWhile more item fuel)
    else return []

/-- Items after commas, as long as an item starts after the comma; whether a comma was left
over at the end. -/
def moreItems {α : Type} (starts : TokenKind → Bool) (item : Parser α) :
    Nat → Parser (List α × Bool)
  | 0 => return ([], false)
  | fuel + 1 => do
    if ← acceptSymbol .comma then
      if ← nextIs starts then
        let x ← item
        let (xs, open_) ← moreItems starts item fuel
        return (x :: xs, open_)
      else return ([], true)
    else return ([], false)

def items {α : Type} (fuel : Nat) (starts : TokenKind → Bool) (item : Parser α) :
    Parser (List α × Bool) := do
  let x ← item
  let (xs, open_) ← moreItems starts item fuel
  return (x :: xs, open_)

def separated {α : Type} (fuel : Nat) (item : Parser α) : Parser (List α) := do
  let x ← item
  return x :: (← manyWhile (acceptSymbol .comma) item fuel)

end Parser
end Pagewright.Syntax
