import Pagewright.Number.Shortest

namespace Pagewright.Syntax

/-- The words that are no names. `match`, `case` and `type` are words only where a statement of
theirs starts. -/
inductive Keyword where
  | falseWord
  | noneWord
  | trueWord
  | andWord
  | asWord
  | assertWord
  | asyncWord
  | awaitWord
  | breakWord
  | caseWord
  | classWord
  | continueWord
  | defWord
  | delWord
  | elifWord
  | elseWord
  | exceptWord
  | finallyWord
  | forWord
  | fromWord
  | globalWord
  | ifWord
  | importWord
  | inWord
  | isWord
  | lambdaWord
  | matchWord
  | nonlocalWord
  | notWord
  | orWord
  | passWord
  | raiseWord
  | returnWord
  | tryWord
  | typeWord
  | whileWord
  | withWord
  | yieldWord
  deriving DecidableEq, Repr

namespace Keyword

def text : Keyword → Text
  | .falseWord => "False"
  | .noneWord => "None"
  | .trueWord => "True"
  | .andWord => "and"
  | .asWord => "as"
  | .assertWord => "assert"
  | .asyncWord => "async"
  | .awaitWord => "await"
  | .breakWord => "break"
  | .caseWord => "case"
  | .classWord => "class"
  | .continueWord => "continue"
  | .defWord => "def"
  | .delWord => "del"
  | .elifWord => "elif"
  | .elseWord => "else"
  | .exceptWord => "except"
  | .finallyWord => "finally"
  | .forWord => "for"
  | .fromWord => "from"
  | .globalWord => "global"
  | .ifWord => "if"
  | .importWord => "import"
  | .inWord => "in"
  | .isWord => "is"
  | .lambdaWord => "lambda"
  | .matchWord => "match"
  | .nonlocalWord => "nonlocal"
  | .notWord => "not"
  | .orWord => "or"
  | .passWord => "pass"
  | .raiseWord => "raise"
  | .returnWord => "return"
  | .tryWord => "try"
  | .typeWord => "type"
  | .whileWord => "while"
  | .withWord => "with"
  | .yieldWord => "yield"

def all : List Keyword :=
  [.falseWord, .noneWord, .trueWord, .andWord, .asWord, .assertWord, .asyncWord, .awaitWord,
   .breakWord, .caseWord, .classWord, .continueWord, .defWord, .delWord, .elifWord, .elseWord,
   .exceptWord, .finallyWord, .forWord, .fromWord, .globalWord, .ifWord, .importWord, .inWord,
   .isWord, .lambdaWord, .matchWord, .nonlocalWord, .notWord, .orWord, .passWord, .raiseWord,
   .returnWord, .tryWord, .typeWord, .whileWord, .withWord, .yieldWord]

def ofText? (t : Text) : Option Keyword :=
  all.find? (·.text = t)

end Keyword

inductive Operator where
  | threeDots
  | doubleStarEqual
  | doubleSlashEqual
  | leftShiftEqual
  | rightShiftEqual
  | doubleStar
  | doubleSlash
  | leftShift
  | rightShift
  | plusEqual
  | minusEqual
  | starEqual
  | slashEqual
  | percentEqual
  | atEqual
  | ampersandEqual
  | barEqual
  | caretEqual
  | arrow
  | colonEqual
  | doubleEqual
  | notEqual
  | lessEqual
  | greaterEqual
  | leftParen
  | rightParen
  | leftBracket
  | rightBracket
  | leftBrace
  | rightBrace
  | colon
  | comma
  | semicolon
  | dot
  | equal
  | less
  | greater
  | plus
  | minus
  | star
  | slash
  | percent
  | atSign
  | ampersand
  | bar
  | caret
  | tilde
  deriving DecidableEq, Repr

namespace Operator

def text : Operator → Text
  | .threeDots => "..."
  | .doubleStarEqual => "**="
  | .doubleSlashEqual => "//="
  | .leftShiftEqual => "<<="
  | .rightShiftEqual => ">>="
  | .doubleStar => "**"
  | .doubleSlash => "//"
  | .leftShift => "<<"
  | .rightShift => ">>"
  | .plusEqual => "+="
  | .minusEqual => "-="
  | .starEqual => "*="
  | .slashEqual => "/="
  | .percentEqual => "%="
  | .atEqual => "@="
  | .ampersandEqual => "&="
  | .barEqual => "|="
  | .caretEqual => "^="
  | .arrow => "->"
  | .colonEqual => ":="
  | .doubleEqual => "=="
  | .notEqual => "!="
  | .lessEqual => "<="
  | .greaterEqual => ">="
  | .leftParen => "("
  | .rightParen => ")"
  | .leftBracket => "["
  | .rightBracket => "]"
  | .leftBrace => "\x7b"
  | .rightBrace => "\x7d"
  | .colon => ":"
  | .comma => ","
  | .semicolon => ";"
  | .dot => "."
  | .equal => "="
  | .less => "<"
  | .greater => ">"
  | .plus => "+"
  | .minus => "-"
  | .star => "*"
  | .slash => "/"
  | .percent => "%"
  | .atSign => "@"
  | .ampersand => "&"
  | .bar => "|"
  | .caret => "^"
  | .tilde => "~"

/-- All operators, no one after a shorter one that it starts with. -/
def all : List Operator :=
  [.threeDots, .doubleStarEqual, .doubleSlashEqual, .leftShiftEqual, .rightShiftEqual,
   .doubleStar, .doubleSlash, .leftShift, .rightShift, .plusEqual, .minusEqual, .starEqual,
   .slashEqual, .percentEqual, .atEqual, .ampersandEqual, .barEqual, .caretEqual, .arrow,
   .colonEqual, .doubleEqual, .notEqual, .lessEqual, .greaterEqual, .leftParen, .rightParen,
   .leftBracket, .rightBracket, .leftBrace, .rightBrace, .colon, .comma, .semicolon, .dot,
   .equal, .less, .greater, .plus, .minus, .star, .slash, .percent, .atSign, .ampersand, .bar,
   .caret, .tilde]

def leading? (t : Text) : Option (Operator × Text) :=
  all.findSome? fun o => (o.text.isPrefixOf? t).map fun rest => (o, rest)

def opens (o : Operator) : Bool :=
  o = .leftParen || o = .leftBracket || o = .leftBrace

def closes (o : Operator) : Bool :=
  o = .rightParen || o = .rightBracket || o = .rightBrace

end Operator

inductive LiteralKind where
  | plain
  | marked
  | bytes
  | format
  deriving DecidableEq, Repr

/-- A literal of characters as written: what stands between its quotes, line ends unified. -/
structure Literal where
  kind : LiteralKind
  raw : Bool
  tripled : Bool
  content : Text
  deriving DecidableEq, Repr

namespace Literal

def letters (l : Literal) : Text :=
  let raw : Text := if l.raw then ['r'] else []
  match l.kind with
  | .plain => raw
  | .marked => "u"
  | .bytes => raw ++ ['b']
  | .format => if l.raw then "rf" else "f"

def shown (l : Literal) : Text :=
  let quotes := List.replicate (if l.tripled then 3 else 1) '"'
  l.letters ++ quotes ++ l.content ++ quotes

end Literal

inductive TokenKind where
  | name (id : Text)
  | keyword (word : Keyword)
  | operator (symbol : Operator)
  | int (value : Nat)
  | float (value : Number.Binary)
  | imaginary (value : Number.Binary)
  | literal (value : Literal)
  | newline
  | indent
  | dedent
  deriving DecidableEq, Repr

namespace TokenKind

def quoted (t : Text) : Text :=
  '\'' :: t ++ ['\'']

/-- A token in a report: names, words, symbols and numbers by value in single quotes. -/
def shown : TokenKind → Text
  | .name id => quoted id
  | .keyword word => quoted word.text
  | .operator symbol => quoted symbol.text
  | .int value => quoted (Text.ofNat value)
  | .float value => quoted (Number.double.render Number.positional value)
  | .imaginary value => "0j" ++ Number.double.render Number.positional value
  | .literal value => value.shown
  | .newline => "Newline"
  | .indent => "Indent"
  | .dedent => "Dedent"

end TokenKind

structure Token where
  kind : TokenKind
  start : Nat
  stop : Nat
  deriving DecidableEq, Repr

end Pagewright.Syntax
