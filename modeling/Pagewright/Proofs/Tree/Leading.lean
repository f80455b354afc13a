import Mathlib.Data.List.Basic
import Pagewright.Syntax.Token
import Pagewright.Syntax.Tree

namespace Pagewright.Syntax

namespace Expr

/-- The operand that stands first in an expression without a bracket or a word before it. -/
def first? : Expr → Option Expr
  | .boolean _ _ values => values.head?
  | .binary _ left _ _ => some left
  | .conditional _ _ body _ => some body
  | .compare _ left _ => some left
  | .call _ callee _ _ => some callee
  | .attribute _ value _ => some value
  | .subscript _ value _ => some value
  | _ => none

/-- An expression starts with another one: with itself, or with what its first operand starts
with. -/
inductive Leads (f : Expr) : Expr → Prop where
  | self : Leads f f
  | first {e e' : Expr} (first : e'.first? = some e) (leads : Leads f e) : Leads f e'

theorem Leads.eq {f e : Expr} (h : f.Leads e) (hnone : e.first? = none) : f = e := by
  cases h with
  | self => rfl
  | first first =>
    rw [hnone] at first
    cases first

/-- The name that an expression is, or the names with dots between them. -/
def path? : Expr → Option Text
  | .name _ id => some id
  | .attribute _ value id => value.path?.map fun path => path ++ '.' :: id
  | _ => none

/-- A subscript of a name, or of names with dots between them. -/
def subscripted? : Expr → Option Text
  | .subscript _ value _ => value.path?
  | _ => none

end Expr

/-- The tokens of a name, or of names with dots between them. -/
inductive Dotted : List Token → Text → Prop where
  | one {t : Token} {id : Text} (name : t.kind = .name id) : Dotted [t] id
  | more {ts : List Token} {dot t : Token} {path id : Text} (before : Dotted ts path)
    (isDot : dot.kind = .operator .dot) (name : t.kind = .name id) :
    Dotted (ts ++ [dot, t]) (path ++ '.' :: id)

namespace TokenKind

def isDotted : TokenKind → Bool
  | .name _ => true
  | .operator o => o = .dot
  | _ => false

/-- The kinds of token that stand behind a first operand, those of a name or a subscript apart. -/
def joins : TokenKind → Bool
  | .operator o => o ≠ .dot && o ≠ .leftBracket
  | .keyword _ => true
  | _ => false

end TokenKind

/-- How the tokens of an expression start, as far as the first of them is a name. -/
inductive Opens : List Token → Expr → Prop where
  | name {t : Token} {span : Span} {id : Text} (kind : t.kind = .name id) :
    Opens [t] (.name span id)
  | member {ts : List Token} {dot t : Token} {span : Span} {e : Expr} {id : Text}
    (value : Opens ts e) (isDot : dot.kind = .operator .dot) (name : t.kind = .name id) :
    Opens (ts ++ [dot, t]) (.attribute span e id)
  | subscript {ts us : List Token} {t : Token} {span : Span} {e index : Expr}
    (value : Opens ts e) (bracket : t.kind = .operator .leftBracket) :
    Opens (ts ++ t :: us) (.subscript span e index)
  | joined {ts us : List Token} {t : Token} {e e' : Expr} (first : e'.first? = some e)
    (opens : Opens ts e) (joins : t.kind.joins = true) : Opens (ts ++ t :: us) e'
  | bound {t : Token} {us : List Token} {x : Token} {e : Expr}
    (binds : x.kind = .operator .colonEqual) : Opens (t :: x :: us) e
  | other {t : Token} {us : List Token} {e : Expr} (kind : ∀ id, t.kind ≠ .name id) :
    Opens (t :: us) e

namespace Dotted

variable {ts : List Token} {path : Text}

theorem isDotted (h : Dotted ts path) : ∀ t ∈ ts, t.kind.isDotted = true := by
  induction h with
  | one name =>
    intro t ht
    rw [List.mem_singleton.mp ht, name]
    rfl
  | more before isDot name ih =>
    intro t ht
    rcases List.mem_append.mp ht with ht | ht
    · exact ih t ht
    · simp only [List.mem_cons, List.not_mem_nil, or_false] at ht
      rcases ht with rfl | rfl
      · rw [isDot]
        rfl
      · rw [name]
        rfl

theorem first (h : Dotted ts path) : ∃ t us id, ts = t :: us ∧ t.kind = .name id := by
  induction h with
  | one name => exact ⟨_, [], _, rfl, name⟩
  | more before isDot name ih =>
    obtain ⟨t, us, id, rfl, hid⟩ := ih
    exact ⟨t, _, id, rfl, hid⟩

/-- The second of several tokens is a dot. -/
theorem second {t x : Token} {us : List Token} (h : Dotted (t :: x :: us) path) :
    x.kind = .operator .dot := by
  generalize hts : t :: x :: us = ts at h
  induction h generalizing us with
  | one => cases hts
  | @more ts dot y _ _ before isDot name ih =>
    obtain ⟨t', us', -, rfl, -⟩ := before.first
    cases us' with
    | nil =>
      obtain rfl : x = dot := by simpa using (List.cons.inj (List.cons.inj hts).2).1
      exact isDot
    | cons x' us' =>
      simp only [List.cons_append, List.cons.injEq] at hts
      obtain ⟨rfl, rfl, -⟩ := hts
      exact ih rfl

end Dotted

/-- Of two ways to cut a list at a token, the second one is in the first part, or both are the
same. -/
theorem append_cons_cases {ts us vs ws : List Token} {x y : Token}
    (h : ts ++ x :: us = vs ++ y :: ws) (hxy : x ∉ vs ∨ y ∉ us) :
    (∃ rest, ts = vs ++ y :: rest) ∨ ts = vs ∧ x = y := by
  rcases List.append_eq_append_iff.mp h with ⟨as, rfl, has⟩ | ⟨as, rfl, has⟩
  · cases as with
    | nil =>
      right
      exact ⟨by simp, (List.cons.inj has).1⟩
    | cons a as =>
      obtain ⟨rfl, rfl⟩ := List.cons.inj has
      rcases hxy with hx | hy
      · exact absurd (by simp) hx
      · exact absurd (by simp) hy
  · cases as with
    | nil =>
      right
      exact ⟨by simp, (List.cons.inj has).1.symm⟩
    | cons a as =>
      obtain ⟨rfl, -⟩ := List.cons.inj has
      exact .inl ⟨as, rfl⟩

namespace TokenKind

variable {k : TokenKind}

theorem isDotted_of_joins (h : k.joins = true) : k.isDotted = false := by
  cases k with
  | operator o =>
    simp only [joins, Bool.and_eq_true, decide_eq_true_eq] at h
    simp [isDotted, h.1]
  | keyword => rfl
  | _ => cases h

end TokenKind

namespace Opens

variable {ts : List Token} {e : Expr} {path : Text}

/-- An expression of a dotted name alone is that name. -/
theorem path?_eq (h : Opens ts e) (hts : Dotted ts path) : e.path? = some path := by
  induction h generalizing path with
  | @name t span id kind =>
    generalize hone : [t] = us at hts
    cases hts with
    | one name =>
      obtain rfl := (List.cons.inj hone).1
      rw [kind] at name
      cases name
      rfl
    | more before => simpa using congrArg List.length hone
  | @member ts dot t span e id value isDot name ih =>
    generalize hmore : ts ++ [dot, t] = us at hts
    cases hts with
    | one => simpa using congrArg List.length hmore
    | more before isDot' name' =>
      obtain ⟨rfl, htail⟩ := List.append_inj' hmore rfl
      simp only [List.cons.injEq, and_true] at htail
      obtain ⟨rfl, rfl⟩ := htail
      rw [name] at name'
      cases name'
      simp [Expr.path?, ih before]
  | @subscript ts us t span e index value bracket ih =>
    have hdotted := hts.isDotted t (by simp)
    rw [bracket] at hdotted
    cases hdotted
  | @joined ts us t e e' first opens joins ih =>
    have hdotted := hts.isDotted t (by simp)
    rw [TokenKind.isDotted_of_joins joins] at hdotted
    cases hdotted
  | bound binds =>
    rw [hts.second] at binds
    cases binds
  | other kind =>
    obtain ⟨t, us, id, hfirst, hname⟩ := hts.first
    obtain ⟨rfl, -⟩ := List.cons.inj hfirst
    exact absurd hname (kind id)

/-- Behind a dotted name nothing but a bracket stands, or what joins it to another operand; the
bracket is that of a subscript of the name. -/
theorem behind {us rest : List Token} {x : Token} (h : Opens us e) (hts : Dotted ts path)
    (hus : us = ts ++ x :: rest) (hx : x.kind.isDotted = false) (hjoins : x.kind.joins = false) :
    x.kind = .operator .leftBracket ∧ ∃ f : Expr, f.Leads e ∧ f.subscripted? = some path := by
  have hnot {y : Token} (hy : y.kind.isDotted = false) : y ∉ ts := by
    intro hmem
    simp [hts.isDotted y hmem] at hy
  induction h generalizing rest with
  | @name t span id kind =>
    obtain ⟨t', ts', id', rfl, -⟩ := hts.first
    simpa using congrArg List.length hus
  | @member ts₀ dot t span e id value isDot name ih =>
    have hxt : x ∉ [t] := by
      intro hmem
      rw [List.mem_singleton.mp hmem, name] at hx
      cases hx
    rcases append_cons_cases hus (.inr hxt) with ⟨rest', hrest⟩ | ⟨-, rfl⟩
    · obtain ⟨hbracket, f, hleads, hf⟩ := ih hrest
      exact ⟨hbracket, f, .first rfl hleads, hf⟩
    · rw [isDot] at hx
      cases hx
  | @subscript ts₀ us t span e index value bracket ih =>
    have ht : t.kind.isDotted = false := by
      rw [bracket]
      rfl
    rcases append_cons_cases hus (.inl (hnot ht)) with ⟨rest', hrest⟩ | ⟨rfl, rfl⟩
    · obtain ⟨hbracket, f, hleads, hf⟩ := ih hrest
      exact ⟨hbracket, f, .first rfl hleads, hf⟩
    · exact ⟨bracket, _, .self, value.path?_eq hts⟩
  | @joined ts₀ us t e e' first opens joins ih =>
    have ht := TokenKind.isDotted_of_joins joins
    rcases append_cons_cases hus (.inl (hnot ht)) with ⟨rest', hrest⟩ | ⟨-, rfl⟩
    · obtain ⟨hbracket, f, hleads, hf⟩ := ih hrest
      exact ⟨hbracket, f, .first first hleads, hf⟩
    · rw [joins] at hjoins
      cases hjoins
  | @bound t us y e binds =>
    obtain ⟨t', ts', id, rfl, -⟩ := hts.first
    obtain ⟨rfl, htail⟩ := List.cons.inj hus
    cases ts' with
    | nil =>
      obtain ⟨rfl, -⟩ := List.cons.inj htail
      rw [binds] at hjoins
      cases hjoins
    | cons y' ts' =>
      obtain ⟨rfl, -⟩ := List.cons.inj htail
      rw [hts.second] at binds
      cases binds
  | other kind =>
    obtain ⟨t', ts', id, rfl, hname⟩ := hts.first
    obtain ⟨rfl, -⟩ := List.cons.inj hus
    exact absurd hname (kind id)

end Opens

end Pagewright.Syntax
