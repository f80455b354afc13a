import Pagewright.Syntax.Cursor

namespace Pagewright.Syntax

open Syntax.Parser

/-- The rules that others refer to, for operands that start after the next token. Each rule is given
over these; the knot is tied at the end. -/
structure Grammar where
  /-- The characters that escapes can name. -/
  names : NameTable
  /-- More than the number of items that any list inside can have. -/
  fuel : Nat
  /-- A conditional, a lambda, or anything that binds tighter. -/
  test : Parser Expr
  /-- A disjunction, or anything that binds tighter. -/
  disjunction : Parser Expr
  /-- A negation, or anything that binds tighter. -/
  negation : Parser Expr
  /-- An operand of a comparison. -/
  operand : Parser Expr
  /-- An arithmetic factor. -/
  factor : Parser Expr

namespace Expression

def starts : TokenKind → Bool
  | .name _ | .int _ | .float _ | .imaginary _ | .literal _ => true
  | .keyword w => [.noneWord, .trueWord, .falseWord, .lambdaWord, .notWord, .awaitWord].contains w
  | .operator o =>
    [.leftParen, .leftBracket, .leftBrace, .plus, .minus, .tilde, .threeDots].contains o
  | _ => false

def startsItem (k : TokenKind) : Bool :=
  starts k || k = .operator .star

def isComprehension (k : TokenKind) : Bool :=
  k = .keyword .forWord || k = .keyword .asyncWord

/-- One expression, or a tuple if there are several or a comma at the end. -/
def grouped (start : Nat) (found : List Expr × Bool) : Parser Expr := do
  match found with
  | ([e], false) => return e
  | (es, _) => return .tuple (← spanFrom start) es

def bindsName : Parser Bool := do
  match ← kind? with
  | some (.name _) => return (← second?) = some (.operator .colonEqual)
  | _ => return false

/-- An expression or a binding of a name. A binding stops where its value does, which leaves the
brackets around the value out. -/
def named (g : Grammar) : Parser Expr := do
  let start ← here
  if ← bindsName then
    let target ← identifier
    take
    let value ← g.test
    return .named ⟨start, value.span.stop⟩ target value
  else g.test

def starred (g : Grammar) : Parser Expr := do
  let start ← here
  expectSymbol .star
  let value ← g.operand
  return .starred (← spanFrom start) value

def testOrStar (g : Grammar) : Parser Expr := do
  if ← isSymbolNext .star then starred g else g.test

def namedOrStar (g : Grammar) : Parser Expr := do
  if ← isSymbolNext .star then starred g else named g

def operandOrStar (g : Grammar) : Parser Expr := do
  if ← isSymbolNext .star then starred g else g.operand

def testList (g : Grammar) : Parser Expr := do
  let start ← here
  grouped start (← items g.fuel startsItem (testOrStar g))

def targetList (g : Grammar) : Parser Expr := do
  let start ← here
  grouped start (← items g.fuel startsItem (operandOrStar g))

def yielded (g : Grammar) : Parser Expr := do
  let start ← here
  expectWord .yieldWord
  if ← acceptWord .fromWord then
    let value ← g.test
    return .yieldFrom (← spanFrom start) value
  else if ← nextIs startsItem then
    let value ← testList g
    return .yield (← spanFrom start) (some value)
  else return .yield (← spanFrom start) none

def assigned (g : Grammar) : Parser Expr := do
  if ← isNext (.keyword .yieldWord) then yielded g else testList g

def generator (g : Grammar) : Parser (Generator Expr) := do
  let isAsync ← acceptWord .asyncWord
  expectWord .forWord
  let target ← targetList g
  expectWord .inWord
  let source ← g.disjunction
  let conditions ← manyWhile (acceptWord .ifWord) g.disjunction g.fuel
  return ⟨target, source, conditions, isAsync⟩

def generators (g : Grammar) : Parser (List (Generator Expr)) := do
  let first ← generator g
  return first :: (← manyWhile (nextIs isComprehension) (generator g) g.fuel)

inductive Argument where
  | positional (value : Expr)
  | keyword (start : Nat) (name : Option Text) (value : Expr)

def startsArgument (k : TokenKind) : Bool :=
  startsItem k || k = .operator .doubleStar

def isKeywordNext : Parser Bool := do
  match ← kind? with
  | some (.name _) => return (← second?) = some (.operator .equal)
  | _ => return false

def argument (g : Grammar) : Parser Argument := do
  let start ← here
  if ← acceptSymbol .star then
    let value ← g.test
    return .positional (.starred (← spanFrom start) value)
  else if ← acceptSymbol .doubleStar then
    return .keyword start none (← g.test)
  else if ← isKeywordNext then
    let name ← identifier
    take
    return .keyword start (some name) (← g.test)
  else
    let value ← named g
    if ← nextIs isComprehension then
      let gs ← generators g
      return .positional (.generator (← spanFrom start) value gs)
    else return .positional value

def argumentFault? : List Text → Bool → Bool → List Argument → Option Fault
  | _, _, _, [] => none
  | names, anyKeyword, unpacked, a :: rest =>
    match a with
    | .keyword start (some name) _ =>
      if names.contains name then some ⟨.repeatedKeyword name, start⟩
      else argumentFault? (name :: names) true unpacked rest
    | .keyword _ none _ => argumentFault? names true true rest
    | .positional value =>
      if anyKeyword && !value.isStarred then some ⟨.positionalAfterKeyword, value.span.start⟩
      else if value.isStarred && unpacked then some ⟨.unpackingAfterKeywords, value.span.start⟩
      else argumentFault? names anyKeyword unpacked rest

def argumentItems (g : Grammar) : Nat → Parser (List Argument)
  | 0 => return []
  | fuel + 1 => do
    if ← nextIs startsArgument then
      let a ← argument g
      if ← acceptSymbol .comma then return a :: (← argumentItems g fuel) else return [a]
    else return []

def arguments (g : Grammar) : Parser (List Expr × List (KeywordArg Expr)) := do
  let found ← argumentItems g g.fuel
  if let some f := argumentFault? [] false false found then hold f
  let args := found.filterMap fun
    | .positional value => some value
    | .keyword .. => none
  let keywords := found.filterMap fun
    | .positional _ => none
    | .keyword _ name value => some ⟨name, value⟩
  return (args, keywords)

def sliceRest (g : Grammar) (start : Nat) (lower : Option Expr) : Parser Expr := do
  expectSymbol .colon
  let upper ← if ← nextIs starts then some <$> g.test else pure none
  let step ← if ← acceptSymbol .colon then
      if ← nextIs starts then some <$> g.test else pure none
    else pure none
  return .slice (← spanFrom start) lower upper step

def subscriptItem (g : Grammar) : Parser Expr := do
  let start ← here
  if ← isSymbolNext .colon then sliceRest g start none
  else
    let isPlain := !(← bindsName) && !(← isSymbolNext .star)
    let value ← namedOrStar g
    if isPlain && (← isSymbolNext .colon) then sliceRest g start (some value)
    else return value

def startsSubscript (k : TokenKind) : Bool :=
  startsItem k || k = .operator .colon

def subscripts (g : Grammar) : Parser Expr := do
  let start ← here
  grouped start (← items g.fuel startsSubscript (subscriptItem g))

/-- The expression of a format field. It is read as if brackets stood around it. -/
def fieldReader (g : Grammar) : LiteralValue.FieldReader := fun text offset =>
  let s := Stream.ofText ('(' :: text ++ [')']) (offset - 1) false
  let whole : Parser Expr := do
    let value ← testList g
    let _ ← manyWhile (accept .newline) (pure ()) g.fuel
    if (← next?).isSome then unexpected
    settle
    return value
  match whole ⟨s.tokens, s.fault, offset - 1, none⟩ with
  | .ok (value, _) => .ok value
  | .error f => .error f.cause

def isLiteral : TokenKind → Bool
  | .literal _ => true
  | _ => false

def literalPart : Parser LiteralValue.Part := do
  match ← next? with
  | some ⟨.literal l, start, stop⟩ =>
    take
    return ⟨l, start, stop⟩
  | _ => unexpected

def literals (g : Grammar) : Parser Expr := do
  let first ← literalPart
  let rest ← manyWhile (nextIs isLiteral) literalPart g.fuel
  match LiteralValue.ofParts g.names (fieldReader g) first rest with
  | .ok value => return value
  | .error f =>
    hold f
    return .constant first.span .none

def afterParen (g : Grammar) (start : Nat) : Parser Expr := do
  let inner ← here
  if ← acceptSymbol .rightParen then return .tuple (← spanFrom start) []
  else if ← isNext (.keyword .yieldWord) then
    let value ← yielded g
    expectSymbol .rightParen
    return value
  else if ← acceptSymbol .doubleStar then
    let value ← g.operand
    expectSymbol .rightParen
    hold ⟨.doubleStarred, inner⟩
    return value
  else
    let first ← namedOrStar g
    if !first.isStarred && (← nextIs isComprehension) then
      let gs ← generators g
      expectSymbol .rightParen
      return .generator (← spanFrom start) first gs
    else
      let (rest, open_) ← moreItems startsItem (namedOrStar g) g.fuel
      expectSymbol .rightParen
      if rest.isEmpty && !open_ then
        if first.isStarred then hold ⟨.starred, first.span.start⟩
        return first
      else return .tuple (← spanFrom start) (first :: rest)

def afterBracket (g : Grammar) (start : Nat) : Parser Expr := do
  if ← acceptSymbol .rightBracket then return .list (← spanFrom start) []
  else
    let first ← namedOrStar g
    if ← nextIs isComprehension then
      let gs ← generators g
      expectSymbol .rightBracket
      return .listComp (← spanFrom start) first gs
    else
      let (rest, _) ← moreItems startsItem (namedOrStar g) g.fuel
      expectSymbol .rightBracket
      return .list (← spanFrom start) (first :: rest)

def startsEntry (k : TokenKind) : Bool :=
  starts k || k = .operator .doubleStar

def entry (g : Grammar) : Parser (Option Expr × Expr) := do
  if ← acceptSymbol .doubleStar then return (none, ← g.operand)
  else
    let key ← g.test
    expectSymbol .colon
    return (some key, ← g.test)

def afterBrace (g : Grammar) (start : Nat) : Parser Expr := do
  if ← acceptSymbol .rightBrace then return .dict (← spanFrom start) []
  else if ← isSymbolNext .doubleStar then
    let (entries, _) ← items g.fuel startsEntry (entry g)
    expectSymbol .rightBrace
    return .dict (← spanFrom start) entries
  else
    let isBinding ← bindsName
    let first ← namedOrStar g
    if !first.isStarred && !isBinding && (← isSymbolNext .colon) then
      expectSymbol .colon
      let value ← g.test
      if ← nextIs isComprehension then
        let gs ← generators g
        expectSymbol .rightBrace
        return .dictComp (← spanFrom start) first value gs
      else
        let (rest, _) ← moreItems startsEntry (entry g) g.fuel
        expectSymbol .rightBrace
        return .dict (← spanFrom start) ((some first, value) :: rest)
    else if !first.isStarred && (← nextIs isComprehension) then
      let gs ← generators g
      expectSymbol .rightBrace
      return .setComp (← spanFrom start) first gs
    else
      let (rest, _) ← moreItems startsItem (namedOrStar g) g.fuel
      expectSymbol .rightBrace
      return .set (← spanFrom start) (first :: rest)

def constant? : TokenKind → Option Constant
  | .int n => some (.int n)
  | .float x => some (.float x)
  | .imaginary x => some (.imaginary x)
  | .keyword .noneWord => some .none
  | .keyword .trueWord => some (.bool true)
  | .keyword .falseWord => some (.bool false)
  | .operator .threeDots => some .ellipsis
  | _ => none

def atom (g : Grammar) : Parser Expr := do
  let start ← here
  match ← kind? with
  | some (.literal _) => literals g
  | some (.name id) =>
    take
    return .name (← spanFrom start) id
  | some (.operator .leftParen) =>
    take
    afterParen g start
  | some (.operator .leftBracket) =>
    take
    afterBracket g start
  | some (.operator .leftBrace) =>
    take
    afterBrace g start
  | some k =>
    match constant? k with
    | some c =>
      take
      return .constant (← spanFrom start) c
    | none => unexpected
  | none => unexpected

def trailers (g : Grammar) (start : Nat) : Nat → Expr → Parser Expr
  | 0, e => return e
  | fuel + 1, e => do
    if ← acceptSymbol .leftParen then
      let (args, keywords) ← arguments g
      expectSymbol .rightParen
      trailers g start fuel (.call (← spanFrom start) e args keywords)
    else if ← acceptSymbol .leftBracket then
      let index ← subscripts g
      expectSymbol .rightBracket
      trailers g start fuel (.subscript (← spanFrom start) e index)
    else if ← acceptSymbol .dot then
      let name ← identifier
      trailers g start fuel (.attribute (← spanFrom start) e name)
    else return e

def primary (g : Grammar) : Parser Expr := do
  let start ← here
  trailers g start g.fuel (← atom g)

def awaited (g : Grammar) : Parser Expr := do
  let start ← here
  if ← acceptWord .awaitWord then
    let value ← primary g
    return .await (← spanFrom start) value
  else primary g

def power (g : Grammar) : Parser Expr := do
  let start ← here
  let base ← awaited g
  if ← acceptSymbol .doubleStar then
    let exponent ← g.factor
    return .binary (← spanFrom start) base .power exponent
  else return base

def sign? : TokenKind → Option UnaryOp
  | .operator .minus => some .negative
  | .operator .plus => some .positive
  | .operator .tilde => some .invert
  | _ => none

def factor (g : Grammar) : Parser Expr := do
  let start ← here
  match (← kind?).bind sign? with
  | some op =>
    take
    let value ← g.factor
    return .unary (← spanFrom start) op value
  | none => power g

def tiers : List (List (Operator × BinaryOp)) :=
  [[(.bar, .bitOr)], [(.caret, .bitXor)], [(.ampersand, .bitAnd)],
   [(.leftShift, .shiftLeft), (.rightShift, .shiftRight)],
   [(.plus, .add), (.minus, .subtract)],
   [(.star, .multiply), (.slash, .divide), (.doubleSlash, .floorDivide), (.percent, .modulo),
    (.atSign, .matrix)]]

def tierOp? (tier : List (Operator × BinaryOp)) : TokenKind → Option BinaryOp
  | .operator o => tier.lookup o
  | _ => none

def chain (tier : List (Operator × BinaryOp)) (tighter : Parser Expr) (start : Nat) :
    Nat → Expr → Parser Expr
  | 0, e => return e
  | fuel + 1, e => do
    match (← kind?).bind (tierOp? tier) with
    | some op =>
      take
      let right ← tighter
      chain tier tighter start fuel (.binary (← spanFrom start) e op right)
    | none => return e

def tierOf (fuel : Nat) (tier : List (Operator × BinaryOp)) (tighter : Parser Expr) :
    Parser Expr := do
  let start ← here
  chain tier tighter start fuel (← tighter)

def operand (g : Grammar) : Parser Expr :=
  tiers.foldr (tierOf g.fuel) (factor g)

def compareOp : Parser (Option CompareOp) := do
  let simple (op : CompareOp) : Parser (Option CompareOp) := do
    take
    return some op
  match ← kind? with
  | some (.operator .doubleEqual) => simple .equal
  | some (.operator .notEqual) => simple .notEqual
  | some (.operator .less) => simple .less
  | some (.operator .lessEqual) => simple .lessEqual
  | some (.operator .greater) => simple .greater
  | some (.operator .greaterEqual) => simple .greaterEqual
  | some (.keyword .inWord) => simple .member
  | some (.keyword .isWord) =>
    take
    if ← acceptWord .notWord then return some .notSame else return some .same
  | some (.keyword .notWord) =>
    take
    expectWord .inWord
    return some .notMember
  | _ => return none

def comparisons (g : Grammar) : Nat → Parser (List (CompareOp × Expr))
  | 0 => return []
  | fuel + 1 => do
    match ← compareOp with
    | some op =>
      let right ← operand g
      return (op, right) :: (← comparisons g fuel)
    | none => return []

def comparison (g : Grammar) : Parser Expr := do
  let start ← here
  let left ← operand g
  match ← comparisons g g.fuel with
  | [] => return left
  | rest => return .compare (← spanFrom start) left rest

def negation (g : Grammar) : Parser Expr := do
  let start ← here
  if ← acceptWord .notWord then
    let value ← g.negation
    return .unary (← spanFrom start) .negation value
  else comparison g

def joinedBy (fuel : Nat) (word : Keyword) (op : BoolOp) (item : Parser Expr) : Parser Expr := do
  let start ← here
  let first ← item
  match ← manyWhile (acceptWord word) item fuel with
  | [] => return first
  | rest => return .boolean (← spanFrom start) op (first :: rest)

def conjunction (g : Grammar) : Parser Expr :=
  joinedBy g.fuel .andWord .conjunction (negation g)

def disjunction (g : Grammar) : Parser Expr :=
  joinedBy g.fuel .orWord .disjunction (conjunction g)

inductive ParamStage where
  | plain
  | afterSlash
  | afterStar
  | afterDoubleStar
  deriving DecidableEq

structure ParamState where
  stage : ParamStage
  params : Parameters Expr
  /-- Where a star without a name stands. -/
  bareStar : Option Nat
  /-- Whether a double star came, even without a name. -/
  anyDoubleStar : Bool

def ParamState.start : ParamState :=
  ⟨.plain, ⟨[], [], none, [], none⟩, none, false⟩

def ParamState.continues (s : ParamState) (isFirst : Bool) : TokenKind → Bool
  | .name _ => s.stage ≠ .afterDoubleStar
  | .operator .slash => s.stage = .plain && !isFirst
  | .operator .star => s.stage = .plain || s.stage = .afterSlash
  | .operator .doubleStar => s.stage ≠ .afterDoubleStar
  | _ => false

def paramName (hint : Option (Parser Expr)) : Parser (Parameter Expr) := do
  let start ← here
  let name ← identifier
  match hint with
  | some rule =>
    if ← acceptSymbol .colon then
      let e ← rule
      return ⟨← spanFrom start, name, some e, none⟩
    else return ⟨← spanFrom start, name, none, none⟩
  | none => return ⟨← spanFrom start, name, none, none⟩

def paramItem (g : Grammar) (typed : Bool) (s : ParamState) : Parser ParamState := do
  let plainHint := if typed then some g.test else none
  let starHint := if typed then some (testOrStar g) else none
  let ps := s.params
  let start ← here
  if ← acceptSymbol .slash then
    return { s with
      stage := .afterSlash
      params := { ps with positionalOnly := ps.regular, regular := [] } }
  else if ← acceptSymbol .star then
    if ← nextIs (fun k => k matches .name _) then
      let p ← paramName starHint
      return { s with stage := .afterStar, params := { ps with variadic := some p } }
    else return { s with stage := .afterStar, bareStar := some start }
  else if ← acceptSymbol .doubleStar then
    let s := { s with stage := .afterDoubleStar, anyDoubleStar := true }
    if ← nextIs (fun k => k matches .name _) then
      let p ← paramName plainHint
      return { s with params := { ps with variadicKeyword := some p } }
    else return s
  else
    let p ← paramName plainHint
    let fallback ← if ← acceptSymbol .equal then some <$> g.test else pure none
    let p := { p with fallback }
    if s.stage = .afterStar then
      return { s with params := { ps with keywordOnly := ps.keywordOnly ++ [p] } }
    else return { s with params := { ps with regular := ps.regular ++ [p] } }

def paramItems (g : Grammar) (typed : Bool) : Nat → ParamState → Parser ParamState
  | 0, s => return s
  | fuel + 1, s => do
    if ← acceptSymbol .comma then
      if ← nextIs (s.continues false) then
        paramItems g typed fuel (← paramItem g typed s)
      else return s
    else return s

def misplacedParam? (ps : List (Parameter Expr)) : Option (Parameter Expr) :=
  ((ps.dropWhile (·.fallback.isNone)).dropWhile (·.fallback.isSome)).head?

/-- What a complete parameter list does not allow: a bare star without names after it, and a
parameter without a default after one with a default. -/
def ParamState.fault? (s : ParamState) : Option Fault :=
  let bare := s.bareStar.filter fun _ => s.params.keywordOnly.isEmpty && !s.anyDoubleStar
  match bare with
  | some start => some ⟨.bareStar, start⟩
  | none => (misplacedParam? (s.params.positionalOnly ++ s.params.regular)).map fun p =>
      ⟨.defaultBeforePlain, p.span.start⟩

def paramList (g : Grammar) (typed : Bool) (closer : Operator) : Parser (Parameters Expr) := do
  if ← isSymbolNext closer then return ParamState.start.params
  else if ← nextIs (ParamState.start.continues true) then
    let s ← paramItems g typed g.fuel (← paramItem g typed ParamState.start)
    if let some f := s.fault? then hold f
    return s.params
  else unexpected

def repeatedParam? : List Text → List (Parameter Expr) → Option (Parameter Expr)
  | _, [] => none
  | names, p :: ps =>
    if names.contains p.name then some p else repeatedParam? (p.name :: names) ps

def checkNames (ps : Parameters Expr) : Parser Unit := do
  let all := ps.single ++ ps.variadic.toList ++ ps.variadicKeyword.toList
  if let some p := repeatedParam? [] all then hold ⟨.repeatedParameter p.name, p.span.start⟩

def lambda (g : Grammar) (start : Nat) : Parser Expr := do
  let params ← paramList g false .colon
  expectSymbol .colon
  let body ← g.test
  checkNames params
  return .lambda (← spanFrom start) params body

def test (g : Grammar) : Parser Expr := do
  let start ← here
  if ← acceptWord .lambdaWord then lambda g start
  else
    let body ← disjunction g
    if ← acceptWord .ifWord then
      let condition ← disjunction g
      expectWord .elseWord
      let orelse ← g.test
      return .conditional (← spanFrom start) condition body orelse
    else return body

end Expression

/-- The rules at a level of nesting, one level for each token that opens an operand; at the last
level nothing can be read. -/
def Grammar.level [CharacterNames] : Nat → Grammar
  | 0 => ⟨CharacterNames.table, 0, unexpected, unexpected, unexpected, unexpected, unexpected⟩
  | n + 1 =>
    { names := CharacterNames.table
      fuel := n + 1
      test := fun c => Expression.test (Grammar.level n) c
      disjunction := fun c => Expression.disjunction (Grammar.level n) c
      negation := fun c => Expression.negation (Grammar.level n) c
      operand := fun c => Expression.operand (Grammar.level n) c
      factor := fun c => Expression.factor (Grammar.level n) c }

end Pagewright.Syntax
