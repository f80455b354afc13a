import Pagewright.Syntax.CasePattern

namespace Pagewright.Syntax

open Syntax.Parser Expression

namespace Statement

def lastStop (start : Nat) (body : List Stmt) : Nat :=
  (body.getLast?.map (·.span.stop)).getD start

def augmentOps : List (Operator × BinaryOp) :=
  [(.plusEqual, .add), (.minusEqual, .subtract), (.starEqual, .multiply), (.atEqual, .matrix),
   (.slashEqual, .divide), (.percentEqual, .modulo), (.ampersandEqual, .bitAnd),
   (.barEqual, .bitOr), (.caretEqual, .bitXor), (.leftShiftEqual, .shiftLeft),
   (.rightShiftEqual, .shiftRight), (.doubleStarEqual, .power), (.doubleSlashEqual, .floorDivide)]

def typeParam (g : Grammar) : Parser TypeParam := do
  let start ← here
  if ← acceptSymbol .star then
    let name ← identifier
    return .many (← spanFrom start) name
  else if ← acceptSymbol .doubleStar then
    let name ← identifier
    return .mapping (← spanFrom start) name
  else
    let name ← identifier
    let bound ← if ← acceptSymbol .colon then some <$> g.test else pure none
    return .single (← spanFrom start) name bound

def startsTypeParam : TokenKind → Bool
  | .name _ => true
  | k => k = .operator .star || k = .operator .doubleStar

def typeParams (g : Grammar) : Parser (List TypeParam) := do
  if ← acceptSymbol .leftBracket then
    let (ps, _) ← items g.fuel startsTypeParam (typeParam g)
    expectSymbol .rightBracket
    return ps
  else return []

/-- A value alone, an assignment, a change in place, or a declaration of one target. -/
def valueStatement (g : Grammar) : Parser Stmt := do
  let start ← here
  let (found, open_) ← items g.fuel startsItem (testOrStar g)
  let target ← grouped start (found, open_)
  let isSingle := found.length = 1 && !open_ && !target.isStarred
  match (← kind?).bind (tierOp? augmentOps) with
  | some op =>
    take
    let value ← assigned g
    return .augment (← spanFrom start) target op value
  | none =>
    if isSingle && (← isSymbolNext .colon) then
      expectSymbol .colon
      let hint ← g.test
      let value ← if ← acceptSymbol .equal then some <$> assigned g else pure none
      return .declare (← spanFrom start) target hint value
    else
      let values ← manyWhile (acceptSymbol .equal) (assigned g) g.fuel
      match values.getLast? with
      | none => return .expr (← spanFrom start) target
      | some value => return .assign (← spanFrom start) (target :: values.dropLast) value

def optionalTest (g : Grammar) : Parser (Option Expr) := do
  if ← nextIs starts then some <$> g.test else return none

def raised (g : Grammar) (start : Nat) : Parser Stmt := do
  match ← optionalTest g with
  | none => return .raise (← spanFrom start) none none
  | some exception =>
    let cause ← if ← acceptWord .fromWord then some <$> g.test else pure none
    return .raise (← spanFrom start) (some exception) cause

def dottedName (g : Grammar) : Parser Text := do
  let head ← identifier
  let rest ← manyWhile (acceptSymbol .dot) identifier g.fuel
  return Text.join ['.'] (head :: rest)

def aliased (name : Parser Text) : Parser Alias := do
  let name ← name
  if ← acceptWord .asWord then return ⟨name, some (← identifier)⟩ else return ⟨name, none⟩

def leadingDots : Nat → Parser Nat
  | 0 => return 0
  | fuel + 1 => do
    if ← acceptSymbol .dot then return (← leadingDots fuel) + 1
    else if ← acceptSymbol .threeDots then return (← leadingDots fuel) + 3
    else return 0

def isName : TokenKind → Bool
  | .name _ => true
  | _ => false

def importedNames (g : Grammar) : Parser (List Alias) := do
  if ← acceptSymbol .star then return [⟨['*'], none⟩]
  else if ← acceptSymbol .leftParen then
    let (names, _) ← items g.fuel isName (aliased identifier)
    expectSymbol .rightParen
    return names
  else separated g.fuel (aliased identifier)

def importFrom (g : Grammar) (start : Nat) : Parser Stmt := do
  let level ← leadingDots g.fuel
  let module ← if level = 0 || (← nextIs isName) then some <$> dottedName g else pure none
  expectWord .importWord
  let names ← importedNames g
  return .importFrom (← spanFrom start) module level names

def simple (g : Grammar) : Parser Stmt := do
  let start ← here
  match ← kind? with
  | some (.keyword w) =>
    match w with
    | .passWord =>
      take
      return .pass (← spanFrom start)
    | .breakWord =>
      take
      return .leave (← spanFrom start)
    | .continueWord =>
      take
      return .next (← spanFrom start)
    | .delWord =>
      take
      let (targets, _) ← items g.fuel startsItem (operandOrStar g)
      return .delete (← spanFrom start) targets
    | .returnWord =>
      take
      let value ← if ← nextIs startsItem then some <$> testList g else pure none
      return .return (← spanFrom start) value
    | .yieldWord =>
      let value ← yielded g
      return .expr (← spanFrom start) value
    | .raiseWord =>
      take
      raised g start
    | .importWord =>
      take
      let names ← separated g.fuel (aliased (dottedName g))
      return .importNames (← spanFrom start) names
    | .fromWord =>
      take
      importFrom g start
    | .globalWord =>
      take
      let names ← separated g.fuel identifier
      return .global (← spanFrom start) names
    | .nonlocalWord =>
      take
      let names ← separated g.fuel identifier
      return .nonlocal (← spanFrom start) names
    | .assertWord =>
      take
      let test ← g.test
      let message ← if ← acceptSymbol .comma then some <$> g.test else pure none
      return .assert (← spanFrom start) test message
    | .typeWord =>
      take
      let name ← identifier
      let params ← typeParams g
      expectSymbol .equal
      let value ← g.test
      return .typeAlias (← spanFrom start) name params value
    | _ => valueStatement g
  | _ => valueStatement g

def line (g : Grammar) : Nat → Parser (List Stmt)
  | 0 => unexpected
  | fuel + 1 => do
    let s ← simple g
    if ← acceptSymbol .semicolon then
      if ← accept .newline then return [s] else return s :: (← line g fuel)
    else
      expect .newline
      return [s]

def missingBlock {α : Type} : Parser α := do
  match ← next? with
  | some t => fault ⟨.missingBlock, t.start⟩
  | none => fault ⟨.unmatchedDedent, (← get).stop⟩

def expectIndent : Parser Unit := do
  if !(← accept .indent) then missingBlock

abbrev Block := Parser (List Stmt)

def elseBlock (block : Block) : Parser (List Stmt) := do
  if ← acceptWord .elseWord then block else return []

/-- The rest of a conditional after its test word; each `elif` is a conditional of its own in
the place of the `else` block. -/
def branches (g : Grammar) (block : Block) (start : Nat) : Nat → Parser Stmt
  | 0 => unexpected
  | fuel + 1 => do
    let test ← named g
    let body ← block
    let next ← here
    if ← acceptWord .elifWord then
      let later ← branches g block next fuel
      return .branch ⟨start, later.span.stop⟩ test body [later]
    else
      let orelse ← elseBlock block
      return .branch ⟨start, lastStop (lastStop start body) orelse⟩ test body orelse

def whileLoop (g : Grammar) (block : Block) (start : Nat) : Parser Stmt := do
  let test ← named g
  let body ← block
  let orelse ← elseBlock block
  return .whileLoop ⟨start, lastStop (lastStop start body) orelse⟩ test body orelse

def forLoop (g : Grammar) (block : Block) (start : Nat) (isAsync : Bool) : Parser Stmt := do
  let target ← targetList g
  expectWord .inWord
  let source ← testList g
  let body ← block
  let orelse ← elseBlock block
  return .forLoop ⟨start, lastStop (lastStop start body) orelse⟩ isAsync target source body orelse

def handler (g : Grammar) (block : Block) (grouped : Bool) : Parser (Handler Stmt) := do
  let start ← here
  expectWord .exceptWord
  if grouped then expectSymbol .star
  if !grouped && (← isSymbolNext .colon) then
    let body ← block
    return ⟨⟨start, lastStop start body⟩, none, none, body⟩
  else
    let type ← g.test
    let name ← if ← acceptWord .asWord then some <$> identifier else pure none
    let body ← block
    return ⟨⟨start, lastStop start body⟩, some type, name, body⟩

def tryBlock (g : Grammar) (block : Block) (start : Nat) : Parser Stmt := do
  let body ← block
  let grouped := (← isNext (.keyword .exceptWord)) && (← second?) = some (.operator .star)
  let handlers ← manyWhile (isNext (.keyword .exceptWord)) (handler g block grouped) g.fuel
  let orelse ← if handlers.isEmpty then pure [] else elseBlock block
  let finale ← if ← acceptWord .finallyWord then block
    else if handlers.isEmpty then unexpected
    else pure []
  let handled := (handlers.getLast?.map (·.span.stop)).getD (lastStop start body)
  return .tryBlock ⟨start, lastStop (lastStop handled orelse) finale⟩ grouped body handlers
    orelse finale

def withItem (g : Grammar) : Parser (Expr × Option Expr) := do
  let value ← g.test
  let target ← if ← acceptWord .asWord then some <$> g.operand else pure none
  return (value, target)

def bracketedItems (g : Grammar) : Parser (List (Expr × Option Expr)) := do
  expectSymbol .leftParen
  let (found, _) ← items g.fuel starts (withItem g)
  expectSymbol .rightParen
  if !(← isSymbolNext .colon) then unexpected
  return found

def openItems (g : Grammar) : Parser (List (Expr × Option Expr)) := do
  let found ← separated g.fuel (withItem g)
  if !(← isSymbolNext .colon) then unexpected
  return found

/-- The items of a `with`. Brackets belong to the list if a colon follows them, otherwise to its
first item; of two faults the later one counts. -/
def withItems (g : Grammar) : Parser (List (Expr × Option Expr)) := fun c =>
  match bracketedItems g c with
  | .ok r => .ok r
  | .error f =>
    match openItems g c with
    | .ok r => .ok r
    | .error f' => .error (if f'.offset < f.offset then f else f')

def withBlock (g : Grammar) (block : Block) (start : Nat) (isAsync : Bool) : Parser Stmt := do
  let found ← withItems g
  let body ← block
  return .withBlock ⟨start, lastStop start body⟩ isAsync found body

def functionDef (g : Grammar) (block : Block) (start : Nat) (isAsync : Bool)
    (decorators : List Expr) : Parser Stmt := do
  let name ← identifier
  let typeParams ← typeParams g
  expectSymbol .leftParen
  let params ← paramList g true .rightParen
  expectSymbol .rightParen
  checkNames params
  let returns ← if ← acceptSymbol .arrow then some <$> g.test else pure none
  let body ← block
  return .function ⟨start, lastStop start body⟩
    ⟨isAsync, name, params, decorators, returns, typeParams⟩ body

def classDef (g : Grammar) (block : Block) (start : Nat) (decorators : List Expr) :
    Parser Stmt := do
  let name ← identifier
  let typeParams ← typeParams g
  let (args, keywords) ← if ← acceptSymbol .leftParen then
      let found ← arguments g
      expectSymbol .rightParen
      pure found
    else pure ([], [])
  let body ← block
  return .classDef ⟨start, lastStop start body⟩ name args keywords decorators typeParams body

def decorator (g : Grammar) : Parser Expr := do
  expectSymbol .atSign
  let e ← named g
  expect .newline
  return e

def decorated (g : Grammar) (block : Block) : Parser Stmt := do
  let decorators ← manyWhile (isSymbolNext .atSign) (decorator g) g.fuel
  let start ← here
  if ← acceptWord .classWord then classDef g block start decorators
  else
    let isAsync ← acceptWord .asyncWord
    expectWord .defWord
    functionDef g block start isAsync decorators

def matchCase (g : Grammar) (block : Block) : Parser (MatchCase Stmt) := do
  expectWord .caseWord
  let pattern ← Pattern.ofCase g
  let guard ← if ← acceptWord .ifWord then some <$> named g else pure none
  let body ← block
  return ⟨pattern, guard, body⟩

def matchOn (g : Grammar) (block : Block) (start : Nat) : Parser Stmt := do
  let subjectStart ← here
  let subject ← grouped subjectStart (← items g.fuel startsItem (namedOrStar g))
  expectSymbol .colon
  expect .newline
  expectIndent
  let first ← matchCase g block
  let rest ← manyWhile (isNext (.keyword .caseWord)) (matchCase g block) g.fuel
  expect .dedent
  let cases := first :: rest
  let stop := (cases.getLast?.map fun c => lastStop start c.body).getD start
  return .matchOn ⟨start, stop⟩ subject cases

def statement (g : Grammar) (block : Block) : Parser (List Stmt) := do
  let start ← here
  match ← kind? with
  | some (.keyword w) =>
    match w with
    | .ifWord =>
      take
      return [← branches g block start g.fuel]
    | .whileWord =>
      take
      return [← whileLoop g block start]
    | .forWord =>
      take
      return [← forLoop g block start false]
    | .tryWord =>
      take
      return [← tryBlock g block start]
    | .withWord =>
      take
      return [← withBlock g block start false]
    | .matchWord =>
      take
      return [← matchOn g block start]
    | .defWord =>
      take
      return [← functionDef g block start false []]
    | .classWord =>
      take
      return [← classDef g block start []]
    | .asyncWord =>
      take
      if ← acceptWord .forWord then return [← forLoop g block start true]
      else if ← acceptWord .withWord then return [← withBlock g block start true]
      else
        expectWord .defWord
        return [← functionDef g block start true []]
    | _ => line g g.fuel
  | some (.operator .atSign) => return [← decorated g block]
  | _ => line g g.fuel

def indented (g : Grammar) (block : Block) : Nat → Parser (List Stmt)
  | 0 => unexpected
  | fuel + 1 => do
    let found ← statement g block
    if ← accept .dedent then return found
    else return found ++ (← indented g block fuel)

def blockOf (g : Grammar) (inner : Block) : Block := do
  expectSymbol .colon
  if ← accept .newline then
    expectIndent
    indented g inner g.fuel
  else line g g.fuel

def block (g : Grammar) : Nat → Block
  | 0 => unexpected
  | n + 1 => fun c => blockOf g (block g n) c

def module (g : Grammar) : Nat → Parser (List Stmt)
  | 0 => unexpected
  | fuel + 1 => do
    match ← kind? with
    | none =>
      settle
      return []
    | some .newline =>
      take
      module g fuel
    | some _ =>
      let found ← statement g (block g g.fuel)
      return found ++ (← module g fuel)

end Statement

def parse [CharacterNames] (t : Text) : Except Fault (List Stmt) :=
  let s := Stream.ofText t 0 true
  let g := Grammar.level (2 * t.length + 8)
  match Statement.module g g.fuel ⟨s.tokens, s.fault, 0, none⟩ with
  | .ok (body, _) => .ok body
  | .error f => .error f

end Pagewright.Syntax
