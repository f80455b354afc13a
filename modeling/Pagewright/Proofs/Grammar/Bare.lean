import Pagewright.Syntax.Tree

namespace Pagewright.Syntax

def Span.nowhere : Span :=
  ⟨0, 0⟩

mutual

def Expr.bare : Expr → Expr
  | .boolean _ op values => .boolean .nowhere op (bareAll values)
  | .named _ target value => .named .nowhere target value.bare
  | .binary _ left op right => .binary .nowhere left.bare op right.bare
  | .unary _ op operand => .unary .nowhere op operand.bare
  | .lambda _ ⟨positional, regular, variadic, keyword, variadicKeyword⟩ body =>
    .lambda .nowhere
      ⟨bareParameters positional, bareParameters regular, bareParameter? variadic,
        bareParameters keyword, bareParameter? variadicKeyword⟩ body.bare
  | .conditional _ test body orelse => .conditional .nowhere test.bare body.bare orelse.bare
  | .dict _ entries => .dict .nowhere (bareEntries entries)
  | .set _ items => .set .nowhere (bareAll items)
  | .listComp _ item generators => .listComp .nowhere item.bare (bareGenerators generators)
  | .setComp _ item generators => .setComp .nowhere item.bare (bareGenerators generators)
  | .dictComp _ key value generators =>
    .dictComp .nowhere key.bare value.bare (bareGenerators generators)
  | .generator _ item generators => .generator .nowhere item.bare (bareGenerators generators)
  | .await _ value => .await .nowhere value.bare
  | .yield _ value => .yield .nowhere (bare? value)
  | .yieldFrom _ value => .yieldFrom .nowhere value.bare
  | .compare _ left rest => .compare .nowhere left.bare (bareComparisons rest)
  | .call _ callee args keywords =>
    .call .nowhere callee.bare (bareAll args) (bareKeywords keywords)
  | .field _ value conversion spec => .field .nowhere value.bare conversion (bare? spec)
  | .joined _ pieces => .joined .nowhere (bareAll pieces)
  | .constant _ value => .constant .nowhere value
  | .attribute _ value name => .attribute .nowhere value.bare name
  | .subscript _ value index => .subscript .nowhere value.bare index.bare
  | .starred _ value => .starred .nowhere value.bare
  | .name _ id => .name .nowhere id
  | .list _ items => .list .nowhere (bareAll items)
  | .tuple _ items => .tuple .nowhere (bareAll items)
  | .slice _ lower upper step => .slice .nowhere (bare? lower) (bare? upper) (bare? step)

def bareAll : List Expr → List Expr
  | [] => []
  | e :: es => e.bare :: bareAll es

def bare? : Option Expr → Option Expr
  | none => none
  | some e => some e.bare

def bareEntries : List (Option Expr × Expr) → List (Option Expr × Expr)
  | [] => []
  | (key, value) :: entries => (bare? key, value.bare) :: bareEntries entries

def bareComparisons : List (CompareOp × Expr) → List (CompareOp × Expr)
  | [] => []
  | (op, e) :: rest => (op, e.bare) :: bareComparisons rest

def bareKeywords : List (KeywordArg Expr) → List (KeywordArg Expr)
  | [] => []
  | ⟨name, value⟩ :: rest => ⟨name, value.bare⟩ :: bareKeywords rest

def bareGenerators : List (Generator Expr) → List (Generator Expr)
  | [] => []
  | ⟨target, source, conditions, isAsync⟩ :: rest =>
    ⟨target.bare, source.bare, bareAll conditions, isAsync⟩ :: bareGenerators rest

def bareParameters : List (Parameter Expr) → List (Parameter Expr)
  | [] => []
  | ⟨_, name, hint, fallback⟩ :: rest =>
    ⟨.nowhere, name, bare? hint, bare? fallback⟩ :: bareParameters rest

def bareParameter? : Option (Parameter Expr) → Option (Parameter Expr)
  | none => none
  | some ⟨_, name, hint, fallback⟩ => some ⟨.nowhere, name, bare? hint, bare? fallback⟩

end

end Pagewright.Syntax
