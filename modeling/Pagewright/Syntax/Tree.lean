import Pagewright.Number.Shortest

namespace Pagewright.Syntax

structure Span where
  start : Nat
  stop : Nat
  deriving DecidableEq, Repr, Inhabited

inductive Constant where
  | none
  | bool (value : Bool)
  | ellipsis
  | text (value : Text)
  | bytes (value : Text)
  | int (value : Nat)
  | float (value : Number.Binary)
  | imaginary (value : Number.Binary)
  deriving DecidableEq, Repr, Inhabited

inductive BoolOp where
  | conjunction
  | disjunction
  deriving DecidableEq, Repr

inductive UnaryOp where
  | negative
  | positive
  | invert
  | negation
  deriving DecidableEq, Repr

inductive BinaryOp where
  | add
  | subtract
  | multiply
  | matrix
  | divide
  | modulo
  | power
  | shiftLeft
  | shiftRight
  | bitOr
  | bitXor
  | bitAnd
  | floorDivide
  deriving DecidableEq, Repr

inductive CompareOp where
  | equal
  | notEqual
  | less
  | lessEqual
  | greater
  | greaterEqual
  | same
  | notSame
  | member
  | notMember
  deriving DecidableEq, Repr

structure KeywordArg (ε : Type) where
  name : Option Text
  value : ε
  deriving Inhabited

structure Generator (ε : Type) where
  target : ε
  source : ε
  conditions : List ε
  isAsync : Bool
  deriving Inhabited

structure Parameter (ε : Type) where
  span : Span
  name : Text
  hint : Option ε
  fallback : Option ε
  deriving Inhabited

structure Parameters (ε : Type) where
  positionalOnly : List (Parameter ε)
  regular : List (Parameter ε)
  variadic : Option (Parameter ε)
  keywordOnly : List (Parameter ε)
  variadicKeyword : Option (Parameter ε)
  deriving Inhabited

def Parameters.single {ε : Type} (ps : Parameters ε) : List (Parameter ε) :=
  ps.positionalOnly ++ ps.regular ++ ps.keywordOnly

inductive Expr where
  | boolean (span : Span) (op : BoolOp) (values : List Expr)
  | named (span : Span) (target : Text) (value : Expr)
  | binary (span : Span) (left : Expr) (op : BinaryOp) (right : Expr)
  | unary (span : Span) (op : UnaryOp) (operand : Expr)
  | lambda (span : Span) (params : Parameters Expr) (body : Expr)
  | conditional (span : Span) (test : Expr) (body : Expr) (orelse : Expr)
  | dict (span : Span) (entries : List (Option Expr × Expr))
  | set (span : Span) (items : List Expr)
  | listComp (span : Span) (item : Expr) (generators : List (Generator Expr))
  | setComp (span : Span) (item : Expr) (generators : List (Generator Expr))
  | dictComp (span : Span) (key : Expr) (value : Expr) (generators : List (Generator Expr))
  | generator (span : Span) (item : Expr) (generators : List (Generator Expr))
  | await (span : Span) (value : Expr)
  | yield (span : Span) (value : Option Expr)
  | yieldFrom (span : Span) (value : Expr)
  | compare (span : Span) (left : Expr) (rest : List (CompareOp × Expr))
  | call (span : Span) (callee : Expr) (args : List Expr) (keywords : List (KeywordArg Expr))
  | field (span : Span) (value : Expr) (conversion : Option Char) (spec : Option Expr)
  | joined (span : Span) (pieces : List Expr)
  | constant (span : Span) (value : Constant)
  | attribute (span : Span) (value : Expr) (name : Text)
  | subscript (span : Span) (value : Expr) (index : Expr)
  | starred (span : Span) (value : Expr)
  | name (span : Span) (id : Text)
  | list (span : Span) (items : List Expr)
  | tuple (span : Span) (items : List Expr)
  | slice (span : Span) (lower : Option Expr) (upper : Option Expr) (step : Option Expr)
  deriving Inhabited

def Expr.span : Expr → Span
  | .boolean s .. | .named s .. | .binary s .. | .unary s .. | .lambda s ..
  | .conditional s .. | .dict s .. | .set s .. | .listComp s .. | .setComp s ..
  | .dictComp s .. | .generator s .. | .await s .. | .yield s .. | .yieldFrom s ..
  | .compare s .. | .call s .. | .field s .. | .joined s .. | .constant s ..
  | .attribute s .. | .subscript s .. | .starred s .. | .name s .. | .list s ..
  | .tuple s .. | .slice s .. => s

def Expr.isStarred : Expr → Bool
  | .starred .. => true
  | _ => false

inductive Pattern where
  | value (span : Span) (expr : Expr)
  | singleton (span : Span) (constant : Constant)
  | sequence (span : Span) (items : List Pattern)
  | mapping (span : Span) (entries : List (Expr × Pattern)) (rest : Option Text)
  | record (span : Span) (callee : Expr) (items : List Pattern) (named : List (Text × Pattern))
  | star (span : Span) (name : Option Text)
  | capture (span : Span) (name : Option Text)
  | alias (span : Span) (pattern : Pattern) (name : Text)
  | anyOf (span : Span) (choices : List Pattern)
  deriving Inhabited

inductive TypeParam where
  | single (span : Span) (name : Text) (bound : Option Expr)
  | many (span : Span) (name : Text)
  | mapping (span : Span) (name : Text)
  deriving Inhabited

structure Alias where
  name : Text
  bound : Option Text
  deriving DecidableEq, Repr, Inhabited

structure Handler (σ : Type) where
  span : Span
  type : Option Expr
  name : Option Text
  body : List σ
  deriving Inhabited

structure MatchCase (σ : Type) where
  pattern : Pattern
  guard : Option Expr
  body : List σ
  deriving Inhabited

structure FunctionHead where
  isAsync : Bool
  name : Text
  params : Parameters Expr
  decorators : List Expr
  returns : Option Expr
  typeParams : List TypeParam
  deriving Inhabited

inductive Stmt where
  | function (span : Span) (head : FunctionHead) (body : List Stmt)
  | classDef (span : Span) (name : Text) (args : List Expr) (keywords : List (KeywordArg Expr))
      (decorators : List Expr) (typeParams : List TypeParam) (body : List Stmt)
  | return (span : Span) (value : Option Expr)
  | delete (span : Span) (targets : List Expr)
  | assign (span : Span) (targets : List Expr) (value : Expr)
  | augment (span : Span) (target : Expr) (op : BinaryOp) (value : Expr)
  | declare (span : Span) (target : Expr) (hint : Expr) (value : Option Expr)
  | typeAlias (span : Span) (name : Text) (params : List TypeParam) (value : Expr)
  | forLoop (span : Span) (isAsync : Bool) (target : Expr) (source : Expr) (body : List Stmt)
      (orelse : List Stmt)
  | whileLoop (span : Span) (test : Expr) (body : List Stmt) (orelse : List Stmt)
  | branch (span : Span) (test : Expr) (body : List Stmt) (orelse : List Stmt)
  | withBlock (span : Span) (isAsync : Bool) (items : List (Expr × Option Expr))
      (body : List Stmt)
  | matchOn (span : Span) (subject : Expr) (cases : List (MatchCase Stmt))
  | raise (span : Span) (exception : Option Expr) (cause : Option Expr)
  | tryBlock (span : Span) (grouped : Bool) (body : List Stmt) (handlers : List (Handler Stmt))
      (orelse : List Stmt) (finale : List Stmt)
  | assert (span : Span) (test : Expr) (message : Option Expr)
  | importNames (span : Span) (names : List Alias)
  | importFrom (span : Span) (module : Option Text) (level : Nat) (names : List Alias)
  | global (span : Span) (names : List Text)
  | nonlocal (span : Span) (names : List Text)
  | expr (span : Span) (value : Expr)
  | pass (span : Span)
  | leave (span : Span)
  | next (span : Span)
  deriving Inhabited

def Stmt.span : Stmt → Span
  | .function s .. | .classDef s .. | .return s .. | .delete s .. | .assign s ..
  | .augment s .. | .declare s .. | .typeAlias s .. | .forLoop s .. | .whileLoop s ..
  | .branch s .. | .withBlock s .. | .matchOn s .. | .raise s .. | .tryBlock s ..
  | .assert s .. | .importNames s .. | .importFrom s .. | .global s .. | .nonlocal s ..
  | .expr s .. | .pass s | .leave s | .next s => s

end Pagewright.Syntax
