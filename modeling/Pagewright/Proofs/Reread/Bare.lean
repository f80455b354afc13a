import Pagewright.Proofs.Grammar.Bare
import Pagewright.Syntax.Expression

namespace Pagewright.Syntax

def KeywordArg.bare (k : KeywordArg Expr) : KeywordArg Expr :=
  ⟨k.name, k.value.bare⟩

def Generator.bare (g : Generator Expr) : Generator Expr :=
  ⟨g.target.bare, g.source.bare, g.conditions.map Expr.bare, g.isAsync⟩

def Parameter.bare (p : Parameter Expr) : Parameter Expr :=
  ⟨.nowhere, p.name, p.hint.map Expr.bare, p.fallback.map Expr.bare⟩

def Parameters.bare (ps : Parameters Expr) : Parameters Expr :=
  ⟨ps.positionalOnly.map Parameter.bare, ps.regular.map Parameter.bare,
    ps.variadic.map Parameter.bare, ps.keywordOnly.map Parameter.bare,
    ps.variadicKeyword.map Parameter.bare⟩

def bareEntry (e : Option Expr × Expr) : Option Expr × Expr :=
  (e.1.map Expr.bare, e.2.bare)

def bareComparison (r : CompareOp × Expr) : CompareOp × Expr :=
  (r.1, r.2.bare)

def Expression.Argument.bare : Expression.Argument → Expression.Argument
  | .positional value => .positional value.bare
  | .keyword _ name value => .keyword 0 name value.bare

theorem bareAll_eq (es : List Expr) : bareAll es = es.map Expr.bare := by
  induction es with
  | nil => simp [bareAll]
  | cons e es ih => simp [bareAll, ih]

theorem bare?_eq (e : Option Expr) : bare? e = e.map Expr.bare := by
  cases e <;> simp [bare?]

theorem bareEntries_eq (es : List (Option Expr × Expr)) : bareEntries es = es.map bareEntry := by
  induction es with
  | nil => simp [bareEntries]
  | cons e es ih => simp [bareEntries, ih, bareEntry, bare?_eq]

theorem bareComparisons_eq (rs : List (CompareOp × Expr)) :
    bareComparisons rs = rs.map bareComparison := by
  induction rs with
  | nil => simp [bareComparisons]
  | cons r rs ih => simp [bareComparisons, ih, bareComparison]

theorem bareKeywords_eq (ks : List (KeywordArg Expr)) :
    bareKeywords ks = ks.map KeywordArg.bare := by
  induction ks with
  | nil => simp [bareKeywords]
  | cons k ks ih => simp [bareKeywords, ih, KeywordArg.bare]

theorem bareGenerators_eq (gs : List (Generator Expr)) :
    bareGenerators gs = gs.map Generator.bare := by
  induction gs with
  | nil => simp [bareGenerators]
  | cons g gs ih => simp [bareGenerators, ih, Generator.bare, bareAll_eq]

theorem bareParameters_eq (ps : List (Parameter Expr)) :
    bareParameters ps = ps.map Parameter.bare := by
  induction ps with
  | nil => simp [bareParameters]
  | cons p ps ih => simp [bareParameters, ih, Parameter.bare, bare?_eq]

theorem bareParameter?_eq (p : Option (Parameter Expr)) :
    bareParameter? p = p.map Parameter.bare := by
  cases p <;> simp [bareParameter?, Parameter.bare, bare?_eq]

theorem bare_lambda (s : Span) (ps : Parameters Expr) (body : Expr) :
    (Expr.lambda s ps body).bare = .lambda .nowhere ps.bare body.bare := by
  simp [Expr.bare, Parameters.bare, bareParameters_eq, bareParameter?_eq]

theorem isStarred_bare (e : Expr) : e.bare.isStarred = e.isStarred := by
  cases e <;> simp [Expr.bare, Expr.isStarred]

theorem isStarred_of_bare {e e' : Expr} (h : e'.bare = e.bare) : e'.isStarred = e.isStarred := by
  rw [← isStarred_bare, h, isStarred_bare]

example : (Expr.starred ⟨3, 8⟩ (.name ⟨4, 8⟩ "rest")).bare.isStarred = true := by
  decide +kernel

end Pagewright.Syntax
