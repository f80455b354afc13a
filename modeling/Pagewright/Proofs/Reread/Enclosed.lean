import Pagewright.Proofs.Grammar.Heads
import Pagewright.Proofs.Grammar.Openings
import Pagewright.Proofs.Reread.Repeats

namespace Pagewright.Syntax

/-- The forms that stand only in brackets, which their spans leave out. -/
def Expr.needsBrackets : Expr → Bool
  | .named .. | .yield .. | .yieldFrom .. => true
  | _ => false

/-- What the rule for tests of a level gives, written as all tokens between two cursors. -/
structure Alone [CharacterNames] (n : Nat) (c c' : Cursor) (e : Expr) : Prop where
  given : (Grammar.level n).test c = .ok (e, c')
  span : e.span = ⟨c.here, c'.stop⟩
  held : c'.held = none
  load : load (c.tokens.map Token.kind) < n

/-- An expression that stands alone behind opening brackets, or one that needs brackets. -/
def Enclosed [CharacterNames] (c : Cursor) (e : Expr) : Prop :=
  e.needsBrackets = true ∨ ∃ n c₁ c₂, c.Passes c₁ ∧ Alone n c₁ c₂ e

/-- An operand between two cursors, where no fault is held. -/
def Stands [CharacterNames] (c c' : Cursor) (e : Expr) : Prop :=
  c'.held = none → e.span = ⟨c.here, c'.stop⟩ ∨ Enclosed c e

section

variable {c c' c₁ : Cursor} {e : Expr}

theorem Enclosed.before [CharacterNames] (h : c.Reaches c₁) (he : Enclosed c₁ e) :
    Enclosed c e := by
  refine he.imp_right fun ⟨n, d, d', hd, halone⟩ => ⟨n, d, d', h.passes hd, halone⟩

theorem Cursor.Takes.load {ts : List Token} (h : c.Takes ts c') :
    Syntax.load (c.tokens.map Token.kind) =
      Syntax.load (ts.map Token.kind) + Syntax.load (c'.tokens.map Token.kind) := by
  rw [h.tokens, List.map_append, load_append]

theorem Cursor.Passes.load_lt (h : c.Passes c') :
    Syntax.load (c'.tokens.map Token.kind) < Syntax.load (c.tokens.map Token.kind) := by
  obtain ⟨ts, hts, hne, -⟩ := h
  obtain ⟨t, ts, rfl⟩ := List.exists_cons_of_ne_nil hne
  have ht := t.kind.weight_pos
  rw [hts.load, List.map_cons, load_cons]
  omega

end

namespace Expression

open Syntax.Parser

variable {n : Nat} {c c₀ : Cursor}

/-- Where the rule for tests gives expressions that stand. -/
def Tests [CharacterNames] (n : Nat) : Prop :=
  ∀ c, load (c.tokens.map Token.kind) < n → Post (Grammar.level n).test c fun e c' => Stands c c' e

section Operands

variable {e : Expr}

/-- The rules behind an operand give it back, or they make one of all tokens. -/
def Grows (c₀ c : Cursor) (e : Expr) (p : Parser Expr) : Prop :=
  Post p c fun e' c' => e' = e ∧ c' = c ∨ e'.span = ⟨c₀.here, c'.stop⟩

theorem Grows.stands [CharacterNames] {p : Parser Expr} {f : Expr → Parser Expr}
    (hp : Post p c₀ fun e c' => Stands c₀ c' e) (hf : ∀ e c, Grows c₀ c e (f e)) :
    Post (p >>= f) c₀ fun e c' => Stands c₀ c' e := by
  refine hp.bind fun e c h => (hf e c).mono fun e' c' h' => ?_
  rcases h' with ⟨rfl, rfl⟩ | hspan
  · exact h
  · exact fun _ => .inl hspan

/-- An expression grows with its trailers, or stays as it is without any. -/
theorem grows_trailers (g : Grammar) (fuel : Nat) (e : Expr) (c : Cursor) :
    Grows c₀ c e (trailers g c₀.here fuel e) := by
  suffices h : ∀ e c, Post (trailers g c₀.here fuel e) c fun e' c' =>
      e' = e ∧ c' = c ∨ e'.span = ⟨c₀.here, c'.stop⟩ from h e c
  induction fuel with
  | zero => exact fun e c => post_pure (.inl ⟨rfl, rfl⟩)
  | succ fuel ih =>
    intro e c
    have hgrown {e' : Expr} {c₁ : Cursor} (hspan : e'.span = ⟨c₀.here, c₁.stop⟩) :
        Post (trailers g c₀.here fuel e') c₁ fun x c' =>
          x = e ∧ c' = c ∨ x.span = ⟨c₀.here, c'.stop⟩ := by
      refine (ih e' c₁).mono fun x c' h => ?_
      rcases h with ⟨rfl, rfl⟩ | h
      · exact .inr hspan
      · exact .inr h
    refine Post.acceptToken (fun t c₁ h₁ hkind => ?_) ?_
    · exact Post.any fun r c₂ => Post.any fun _ c₃ => Post.span (hgrown rfl)
    refine Post.acceptToken (fun t c₁ h₁ hkind => ?_) ?_
    · exact Post.any fun r c₂ => Post.any fun _ c₃ => Post.span (hgrown rfl)
    refine Post.acceptToken (fun t c₁ h₁ hkind => ?_) (post_pure (.inl ⟨rfl, rfl⟩))
    exact Post.any fun r c₂ => Post.span (hgrown rfl)

/-- An expression grows with the operators behind it, or stays as it is. -/
theorem grows_chain (tier : List (Operator × BinaryOp)) (tighter : Parser Expr) (fuel : Nat)
    (e : Expr) (c : Cursor) : Grows c₀ c e (chain tier tighter c₀.here fuel e) := by
  suffices h : ∀ e c, Post (chain tier tighter c₀.here fuel e) c fun e' c' =>
      e' = e ∧ c' = c ∨ e'.span = ⟨c₀.here, c'.stop⟩ from h e c
  induction fuel with
  | zero => exact fun e c => post_pure (.inl ⟨rfl, rfl⟩)
  | succ fuel ih =>
    intro e c
    refine Post.kind fun k? hk => ?_
    split
    · refine Post.any fun _ c₁ => Post.any fun right c₂ => Post.span ((ih _ c₂).mono fun x c' h => ?_)
      rcases h with ⟨rfl, rfl⟩ | h
      · exact .inr rfl
      · exact .inr h
    · exact post_pure (.inl ⟨rfl, rfl⟩)

/-- Items that follow others are none, or a fault-free end. -/
theorem post_manyWhile_nil {α : Type} {k : TokenKind} {item : Parser α} (fuel : Nat) (c : Cursor) :
    Post (manyWhile (accept k) item fuel) c fun xs c' => xs = [] → c' = c := by
  cases fuel with
  | zero => exact post_pure fun _ => rfl
  | succ fuel =>
    refine Post.acceptToken (fun t c₁ h₁ hkind => ?_) (post_pure fun _ => rfl)
    exact Post.any fun x c₂ => Post.any fun xs c₃ => post_pure fun h => absurd h (List.cons_ne_nil x xs)

theorem grows_joinedBy {item : Parser Expr} (fuel : Nat) (word : Keyword) (op : BoolOp) (e : Expr)
    (c : Cursor) : Grows c₀ c e (manyWhile (acceptWord word) item fuel >>= fun
      | [] => pure e
      | rest => spanFrom c₀.here >>= fun s => pure (.boolean s op (e :: rest))) := by
  refine (post_manyWhile_nil fuel c).bind fun rest c₁ h₁ => ?_
  cases rest with
  | nil => exact post_pure (.inl ⟨rfl, h₁ rfl⟩)
  | cons x xs => exact Post.span (post_pure (.inr rfl))

theorem post_comparisons_nil (g : Grammar) (fuel : Nat) (c : Cursor) :
    Post (comparisons g fuel) c fun xs c' => xs = [] → c' = c := by
  cases fuel with
  | zero => exact post_pure fun _ => rfl
  | succ fuel =>
    refine post_compareOp.bind fun op c₁ h₁ => ?_
    rcases h₁ with ⟨rfl, rfl⟩ | ⟨hop, -⟩
    · exact post_pure fun _ => rfl
    · obtain ⟨op, rfl⟩ := Option.isSome_iff_exists.mp hop
      exact Post.any fun x c₂ => Post.any fun xs c₃ =>
        post_pure fun h => absurd h (List.cons_ne_nil _ xs)

theorem post_moreItems_alone {α : Type} {starts : TokenKind → Bool} {item : Parser α} (fuel : Nat)
    (c : Cursor) :
    Post (moreItems starts item fuel) c fun r c' => r.1 = [] ∧ r.2 = false → c' = c := by
  cases fuel with
  | zero => exact post_pure fun _ => rfl
  | succ fuel =>
    refine Post.acceptToken (fun t c₁ h₁ hkind => looks_nextIs.bind fun b => ?_)
      (post_pure fun _ => rfl)
    refine Post.ite (fun _ => ?_) fun _ => post_pure fun h => absurd h.2 (by simp)
    exact Post.any fun x c₂ => Post.any fun r c₃ => post_pure fun h => absurd h.1 (by simp)

/-- Neighbouring literals stop where the last of them does. -/
theorem post_lastPart (fuel : Nat) (c : Cursor) :
    Post (manyWhile (nextIs isLiteral) literalPart fuel) c fun parts c' =>
      parts = [] ∧ c' = c ∨ parts.getLast?.map (fun p => p.span.stop) = some c'.stop := by
  induction fuel generalizing c with
  | zero => exact post_pure (.inl ⟨rfl, rfl⟩)
  | succ fuel ih =>
    refine looks_nextIs.bind fun b => Post.ite (fun _ => ?_) fun _ => post_pure (.inl ⟨rfl, rfl⟩)
    refine literalPart_takes.bind fun part c₁ h₁ => (ih c₁).bind fun parts c₂ h₂ => post_pure (.inr ?_)
    obtain ⟨t, -, -, -, hspan⟩ := h₁
    rcases h₂ with ⟨rfl, rfl⟩ | h₂
    · simp [hspan]
    · obtain ⟨last, hlast, hstop⟩ := Option.map_eq_some_iff.mp h₂
      simp [List.getLast?_cons, hlast, hstop]

theorem stands_literals [CharacterNames] (g : Grammar) :
    Post (literals g) c fun e c' => Stands c c' e := by
  refine literalPart_takes.bind fun first c₁ h₁ => ?_
  obtain ⟨t, -, -, -, hfirst⟩ := h₁
  refine (post_lastPart g.fuel c₁).bind fun rest c₂ h₂ => ?_
  split
  · rename_i e he
    refine post_pure fun _ => .inl ?_
    rw [(ofParts_span he).1]
    rcases h₂ with ⟨rfl, rfl⟩ | h₂
    · rw [List.getLastD_cons, List.getLastD_nil, hfirst]
    · obtain ⟨last, hlast, hstop⟩ := Option.map_eq_some_iff.mp h₂
      rw [List.getLastD_cons, List.getLastD_eq_getLast?, hlast, Option.getD_some, hstop, hfirst]
  · intro x c' hx hheld
    obtain ⟨-, rfl⟩ := Prod.mk.inj (Except.ok.inj hx)
    cases hc₂ : c₂.held <;> simp [hc₂] at hheld

end Operands

section Rules

variable [CharacterNames] (htest : Tests n) (hload : load (c.tokens.map Token.kind) < n)

include htest hload

theorem enclosed_named : Post (named (Grammar.level n)) c fun e c' =>
    c'.held = none → e.needsBrackets = true ∨ ∃ n c₁ c₂, c.Reaches c₁ ∧ Alone n c₁ c₂ e := by
  refine Post.here ?_
  refine post_bindsName.bind fun b c' h => ?_
  obtain ⟨rfl, -⟩ := h
  cases b with
  | true =>
    refine Post.any fun target c₁ => Post.any fun _ c₂ => Post.any fun value c₃ => ?_
    exact post_pure fun _ => .inl rfl
  | false =>
    intro e c₁ he hheld
    rcases htest c' hload e c₁ he hheld with hspan | hbracket | ⟨m, d, d', hd, halone⟩
    · exact .inr ⟨n, c', c₁, .refl c', he, hspan, hheld, hload⟩
    · exact .inl hbracket
    · exact .inr ⟨m, d, d', hd.reaches, halone⟩

/-- An expression in parentheses stands alone, or only its brackets are left out of its span. -/
theorem enclosed_afterParen {t : Token} (ht : c₀.Takes [t] c) (hword : t.kind.isLayout = false) :
    Post (afterParen (Grammar.level n) c₀.here) c fun e c' => Stands c₀ c' e := by
  have hwhole {p : Parser Expr} {c₁ : Cursor} (h : Post p c₁ fun e c' => e.span = ⟨c₀.here, c'.stop⟩) :
      Post p c₁ fun e c' => Stands c₀ c' e := h.mono fun e c' hspan _ => .inl hspan
  have hpasses := ht.passes hword
  refine Post.here ?_
  refine Post.accept rfl (fun c₁ h₁ => hwhole (Post.span (post_pure rfl))) ?_
  refine looks_isNext.bind fun b => ?_
  cases b with
  | true =>
    have hyield : Post (yielded (Grammar.level n)) c fun e _ => e.needsBrackets = true := by
      refine Post.here (Post.any fun _ c₁ => Post.any fun b c₂ => Post.ite (fun _ => ?_) fun _ => ?_)
      · exact Post.any fun value c₃ => Post.span (post_pure rfl)
      refine looks_nextIs.bind fun b => Post.ite (fun _ => ?_) fun _ => Post.span (post_pure rfl)
      exact Post.any fun value c₃ => Post.span (post_pure rfl)
    exact hyield.bind fun e c₁ he => Post.any fun _ c₂ => post_pure fun _ => .inr (.inl he)
  | false =>
  have hhold {f : Fault} {e : Expr} {c₁ : Cursor} : Post (hold f >>= fun _ => pure e) c₁
      fun e c' => Stands c₀ c' e := by
    intro x c' hx hheld
    obtain ⟨-, rfl⟩ := Prod.mk.inj (Except.ok.inj hx)
    cases hc₁ : c₁.held <;> simp [hc₁] at hheld
  refine Post.accept rfl (fun c₁ h₁ => Post.any fun value c₂ => Post.any fun _ c₃ => hhold) ?_
  have hfirst : Post (namedOrStar (Grammar.level n)) c fun e c' =>
      c'.held = none → e.isStarred = true ∨ Enclosed c₀ e := by
    refine looks_isNext.bind fun b => ?_
    cases b with
    | true =>
      exact Post.here (Post.any fun _ c₁ => Post.any fun value c₂ =>
        Post.span (post_pure fun _ => .inl rfl))
    | false =>
      refine (enclosed_named htest hload).mono fun e c' h hheld => .inr ?_
      exact (h hheld).imp_right fun ⟨m, d, d', hd, halone⟩ => ⟨m, d, d', hpasses.trans hd, halone⟩
  refine hfirst.bind fun first c₁ h₁ => looks_nextIs.bind fun b => ?_
  split
  · exact hwhole (Post.any fun gs c₂ => Post.any fun _ c₃ => Post.span (post_pure rfl))
  · refine (post_moreItems_alone _ c₁).bind fun r c₂ h₂ => ?_
    obtain ⟨rest, isOpen⟩ := r
    refine post_expect_settled.bind fun _ c₃ hheld => ?_
    simp only
    split
    · rename_i halone
      obtain rfl := h₂ (by simpa using halone)
      split
      · exact hhold
      · rename_i hplain
        exact post_pure fun _ => .inr ((h₁ hheld).resolve_left hplain)
    · exact hwhole (Post.span (post_pure rfl))

end Rules

section Rules

variable [CharacterNames] (htest : Tests n) (hload : load (c.tokens.map Token.kind) ≤ n)

include htest hload

theorem stands_atom : Post (atom (Grammar.level n)) c fun e c' => Stands c c' e := by
  have hwhole {p : Parser Expr} {c₁ : Cursor} (h : Post p c₁ fun e c' => e.span = ⟨c.here, c'.stop⟩) :
      Post p c₁ fun e c' => Stands c c' e := h.mono fun e c' hspan _ => .inl hspan
  refine Post.here ?_
  refine Post.kind fun k? hk => ?_
  split
  · exact stands_literals _
  · exact hwhole (Post.any fun _ c₁ => Post.span (post_pure rfl))
  · refine Post.take hk fun t c₁ h₁ hkind => ?_
    have hword : t.kind.isLayout = false := by
      rw [hkind]
      rfl
    have hless := (h₁.passes hword).load_lt
    exact enclosed_afterParen htest (Nat.lt_of_lt_of_le hless hload) h₁ hword
  · exact hwhole (Post.any fun _ c₁ => span_afterBracket c.here)
  · exact hwhole (Post.any fun _ c₁ => span_afterBrace c.here)
  · split
    · exact hwhole (Post.any fun _ c₁ => Post.span (post_pure rfl))
    · exact post_unexpected
  · exact post_unexpected

theorem stands_primary : Post (primary (Grammar.level n)) c fun e c' => Stands c c' e :=
  Post.here (Grows.stands (stands_atom htest hload) fun e c₁ => grows_trailers _ _ e c₁)

theorem stands_factor : Post (factor (Grammar.level n)) c fun e c' => Stands c c' e := by
  have hwhole {p : Parser Expr} {c₁ : Cursor} (h : Post p c₁ fun e c' => e.span = ⟨c.here, c'.stop⟩) :
      Post p c₁ fun e c' => Stands c c' e := h.mono fun e c' hspan _ => .inl hspan
  refine Post.here (Post.kind fun k? hk => ?_)
  split
  · exact hwhole (Post.any fun _ c₁ => Post.any fun value c₂ => Post.span (post_pure rfl))
  refine Post.here (Grows.stands (Post.here ?_) fun base c₁ => ?_)
  · refine Post.acceptToken (fun t c₁ h₁ hkind => ?_) (stands_primary htest hload)
    exact hwhole (Post.any fun value c₂ => Post.span (post_pure rfl))
  · refine Post.acceptToken (fun t c₂ h₂ hkind => ?_) (post_pure (.inl ⟨rfl, rfl⟩))
    exact Post.any fun exponent c₃ => Post.span (post_pure (.inr rfl))

theorem stands_operand : Post (operand (Grammar.level n)) c fun e c' => Stands c c' e := by
  unfold operand
  generalize tiers = tiers
  induction tiers with
  | nil => exact stands_factor htest hload
  | cons tier tiers ih => exact Post.here (Grows.stands ih fun e c₁ => grows_chain _ _ _ e c₁)

theorem stands_comparison : Post (comparison (Grammar.level n)) c fun e c' => Stands c c' e := by
  refine Post.here (Grows.stands (stands_operand htest hload) fun left c₁ => ?_)
  refine (post_comparisons_nil _ _ c₁).bind fun rest c₂ h₂ => ?_
  cases rest with
  | nil => exact post_pure (.inl ⟨rfl, h₂ rfl⟩)
  | cons x xs => exact Post.span (post_pure (.inr rfl))

theorem stands_negation : Post (negation (Grammar.level n)) c fun e c' => Stands c c' e := by
  refine Post.here (Post.acceptToken (fun t c₁ h₁ hkind => ?_) (stands_comparison htest hload))
  exact Post.any fun value c₂ => Post.span (post_pure fun _ => .inl rfl)

theorem stands_disjunction : Post (disjunction (Grammar.level n)) c fun e c' => Stands c c' e := by
  refine Post.here (Grows.stands (Post.here (Grows.stands (stands_negation htest hload) ?_)) ?_)
  · exact fun e c₁ => grows_joinedBy _ _ _ e c₁
  · exact fun e c₁ => grows_joinedBy _ _ _ e c₁

/-- A conditional, a lambda or a disjunction stands alone unless it is in brackets. -/
theorem stands_test : Post (test (Grammar.level n)) c fun e c' => Stands c c' e := by
  refine Post.here (Post.acceptToken (fun t c₁ h₁ hkind => ?_) ?_)
  · refine Post.any fun params c₂ => Post.any fun _ c₃ => Post.any fun body c₄ => ?_
    exact Post.any fun _ c₅ => Post.span (post_pure fun _ => .inl rfl)
  refine Grows.stands (stands_disjunction htest hload) fun body c₁ => ?_
  refine Post.acceptToken (fun t c₂ h₂ hkind => ?_) (post_pure (.inl ⟨rfl, rfl⟩))
  refine Post.any fun condition c₃ => Post.any fun _ c₄ => Post.any fun orelse c₅ => ?_
  exact Post.span (post_pure (.inr rfl))

end Rules

/-- At every level, an expression is all that is read, or brackets stand around it. -/
theorem tests_level [CharacterNames] (n : Nat) : Tests n := by
  induction n with
  | zero => exact fun c hload => absurd hload (Nat.not_lt_zero _)
  | succ n ih => exact fun c hload => stands_test ih (Nat.le_of_lt_succ hload)

end Expression

end Pagewright.Syntax
