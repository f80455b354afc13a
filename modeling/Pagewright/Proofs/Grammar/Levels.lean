import Pagewright.Proofs.Grammar.Factors
import Pagewright.Proofs.Tree.Leading

namespace Pagewright.Syntax

open Syntax.Parser

theorem TokenKind.isLayout_of_joins {k : TokenKind} (h : k.joins = true) : k.isLayout = false := by
  cases k with
  | operator | keyword => rfl
  | _ => cases h

namespace Expression

variable {g : Grammar} {c : Cursor}

/-- Operators of one tier join operands that lie within their words. -/
theorem told_chain {tier : List (Operator × BinaryOp)} {tighter : Parser Expr}
    (h : Item tighter Told) {c₀ : Cursor} {e : Expr} (fuel : Nat) (he : Told c₀ c e) :
    Post (chain tier tighter c₀.here fuel e) c fun e' c' => Told c₀ c' e' := by
  induction fuel generalizing c e with
  | zero => exact post_pure he
  | succ fuel ih =>
    refine Post.kind fun k? hk => ?_
    split
    · rename_i op hop
      obtain ⟨k, rfl, hop⟩ := Option.bind_eq_some_iff.mp hop
      have hword : k.isLayout = false := by
        cases k with
        | operator o => rfl
        | _ => cases hop
      refine Post.take hk fun t c₁ h₁ hkind => ?_
      refine (h c₁).bind fun right c₂ h₂ => ?_
      have hall := he.passes.trans ((h₁.passes (hkind ▸ hword)).trans h₂.1.reaches).reaches
      exact Post.span (ih (told_plain hall rfl rfl))
    · exact post_pure he

theorem told_tierOf {tighter : Parser Expr} (h : Item tighter Told) (fuel : Nat)
    (tier : List (Operator × BinaryOp)) : Item (tierOf fuel tier tighter) Told := by
  intro c
  refine Post.here ?_
  refine (h c).bind fun e c₁ h₁ => ?_
  exact (told_chain h fuel h₁.2).mono fun e' c' h' => ⟨h'.passes, h'⟩

theorem told_joinedBy {item : Parser Expr} (h : Item item Told) (fuel : Nat) (word : Keyword)
    (op : BoolOp) : Item (joinedBy fuel word op item) Told := by
  intro c
  refine Post.here ?_
  refine (h c).bind fun first c₁ h₁ => ?_
  refine (post_manyWhile extends_told h (reaches_accept rfl) fuel c₁).bind fun rest c₂ h₂ => ?_
  split
  · exact post_pure ⟨h₁.1.trans h₂.1, extends_told.after h₁.2 h₂.1⟩
  · have hall := h₁.1.trans h₂.1
    exact Post.span (post_pure ⟨hall, told_plain hall rfl rfl⟩)

/-- A comparison is spelled by words that join its operands. -/
theorem post_compareOp : Post compareOp c fun op c' => op = none ∧ c' = c ∨
    op.isSome = true ∧ ∃ t c₁, c.Takes [t] c₁ ∧ t.kind.joins = true ∧ c₁.Reaches c' := by
  unfold compareOp
  simp only
  refine Post.kind fun k? hk => ?_
  have hsimple {k : TokenKind} (hk : c.kind? = some k) (hjoins : k.joins = true)
      (op : CompareOp) : Post (take >>= fun _ => pure (some op)) c fun op c' =>
        op = none ∧ c' = c ∨
          op.isSome = true ∧ ∃ t c₁, c.Takes [t] c₁ ∧ t.kind.joins = true ∧ c₁.Reaches c' :=
    Post.take hk fun t c₁ h₁ hkind => post_pure (.inr ⟨rfl, t, c₁, h₁, hkind ▸ hjoins, .refl c₁⟩)
  split
  · exact hsimple hk rfl _
  · exact hsimple hk rfl _
  · exact hsimple hk rfl _
  · exact hsimple hk rfl _
  · exact hsimple hk rfl _
  · exact hsimple hk rfl _
  · exact hsimple hk rfl _
  · refine Post.take hk fun t c₁ h₁ hkind => ?_
    have hjoins : t.kind.joins = true := by
      rw [hkind]
      rfl
    refine Post.accept rfl (fun c₂ h₂ => ?_) ?_
    · exact post_pure (.inr ⟨rfl, t, c₁, h₁, hjoins, h₂.reaches⟩)
    · exact post_pure (.inr ⟨rfl, t, c₁, h₁, hjoins, .refl c₁⟩)
  · refine Post.take hk fun t c₁ h₁ hkind => Post.expect rfl fun c₂ h₂ => post_pure ?_
    exact .inr ⟨rfl, t, c₁, h₁, by rw [hkind]; rfl, h₂.reaches⟩
  · exact post_pure (.inl ⟨rfl, rfl⟩)

theorem reaches_compareOp (c : Cursor) : Post compareOp c fun _ c' => c.Reaches c' := by
  refine post_compareOp.mono fun op c' h => ?_
  rcases h with ⟨-, rfl⟩ | ⟨-, t, c₁, ht, hjoins, h₁⟩
  · exact .refl c'
  · exact ((ht.passes (TokenKind.isLayout_of_joins hjoins)).trans h₁).reaches

theorem plain_paramName (hint : Option (Parser Expr)) (h : ∀ rule ∈ hint, Plain rule) :
    Plain (paramName hint) := by
  intro c
  refine Post.here ?_
  refine Post.identifier fun name c₁ h₁ => ?_
  split
  · refine Post.accept rfl (fun c₂ h₂ => ?_) ?_
    · refine (h _ rfl c₂).bind fun e c₃ h₃ => ?_
      have hall := h₁.trans (h₂.trans h₃.1.reaches).reaches
      exact Post.span (post_pure ⟨hall, trivial⟩)
    · exact Post.span (post_pure ⟨h₁, trivial⟩)
  · exact Post.span (post_pure ⟨h₁, trivial⟩)

theorem reaches_checkNames (ps : Parameters Expr) (c : Cursor) :
    Post (checkNames ps) c fun _ c' => c.Reaches c' := by
  unfold checkNames
  simp only
  split
  · exact post_hold.mono fun _ c' h => h.reaches_nil
  · exact post_pure (.refl c)

section Rules

variable (hg : g.Tells)

include hg

theorem told_operand : Item (operand g) Told := by
  unfold operand
  induction tiers with
  | nil => exact fun c => (formed_factor hg c).mono fun e c' h => ⟨h.1, h.2.toTold⟩
  | cons tier tiers ih => exact told_tierOf ih g.fuel tier

theorem reaches_comparisons (fuel : Nat) (c : Cursor) :
    Post (comparisons g fuel) c fun _ c' => c.Reaches c' := by
  induction fuel generalizing c with
  | zero => exact post_pure (.refl c)
  | succ fuel ih =>
    refine (reaches_compareOp c).bind fun op c₁ h₁ => ?_
    split
    · refine (told_operand hg c₁).bind fun right c₂ h₂ => ?_
      refine (ih c₂).bind fun rest c₃ h₃ => ?_
      exact post_pure (h₁.trans (h₂.1.trans h₃).reaches)
    · exact post_pure h₁

theorem told_comparison : Item (comparison g) Told := by
  intro c
  refine Post.here ?_
  refine (told_operand hg c).bind fun left c₁ h₁ => ?_
  refine (reaches_comparisons hg g.fuel c₁).bind fun rest c₂ h₂ => ?_
  split
  · exact post_pure ⟨h₁.1.trans h₂, extends_told.after h₁.2 h₂⟩
  · have hall := h₁.1.trans h₂
    exact Post.span (post_pure ⟨hall, told_plain hall rfl rfl⟩)

theorem told_negation : Item (negation g) Told := by
  intro c
  refine Post.here ?_
  refine Post.acceptToken (fun t c₁ h₁ hkind => ?_) (told_comparison hg c)
  refine (hg.negation c₁).bind fun value c₂ h₂ => ?_
  have hword : c.Passes c₁ := h₁.passes (by rw [hkind]; rfl)
  have hforeign : t.kind.isForeign = true := by
    rw [hkind]
    decide
  obtain ⟨ts, hts, -⟩ := h₂.1.reaches
  have h := hword.trans h₂.1.reaches
  refine Post.span (post_pure ⟨h, Formed.toTold ?_⟩)
  exact formed_whole h rfl (h₁.trans hts) (.foreign List.mem_cons_self hforeign) (.inl rfl)

theorem told_disjunction : Item (disjunction g) Told :=
  told_joinedBy (told_joinedBy (told_negation hg) g.fuel .andWord .conjunction) g.fuel .orWord
    .disjunction

/-- A parameter takes at least one word, whatever the list holds so far. -/
theorem plain_paramItem (typed : Bool) (s : ParamState) : Plain (paramItem g typed s) := by
  have hplain : ∀ rule ∈ (if typed then some g.test else none), Plain rule := by
    cases typed with
    | true => simpa using hg.test.plain
    | false => simp
  have hstar : ∀ rule ∈ (if typed then some (testOrStar g) else none), Plain rule := by
    cases typed with
    | true => simpa using (told_testOrStar hg).plain
    | false => simp
  intro c
  refine Post.here ?_
  refine Post.accept rfl (fun c₁ h₁ => ?_) ?_
  · exact post_pure ⟨h₁, trivial⟩
  refine Post.accept rfl (fun c₁ h₁ => ?_) ?_
  · refine looks_nextIs.bind fun b => ?_
    cases b with
    | true =>
      refine (plain_paramName _ hstar c₁).bind fun p c₂ h₂ => ?_
      exact post_pure ⟨h₁.trans h₂.1.reaches, trivial⟩
    | false => exact post_pure ⟨h₁, trivial⟩
  refine Post.accept rfl (fun c₁ h₁ => ?_) ?_
  · refine looks_nextIs.bind fun b => ?_
    cases b with
    | true =>
      refine (plain_paramName _ hplain c₁).bind fun p c₂ h₂ => ?_
      exact post_pure ⟨h₁.trans h₂.1.reaches, trivial⟩
    | false => exact post_pure ⟨h₁, trivial⟩
  refine (plain_paramName _ hplain c).bind fun p c₁ h₁ => ?_
  refine Post.optionalAfter rfl hg.test.plain fun fallback c₂ h₂ => ?_
  have hall := h₁.1.trans h₂
  split
  · exact post_pure ⟨hall, trivial⟩
  · exact post_pure ⟨hall, trivial⟩

theorem reaches_paramItems (typed : Bool) (fuel : Nat) (s : ParamState) (c : Cursor) :
    Post (paramItems g typed fuel s) c fun _ c' => c.Reaches c' := by
  induction fuel generalizing s c with
  | zero => exact post_pure (.refl c)
  | succ fuel ih =>
    refine Post.accept rfl (fun c₁ h₁ => ?_) (post_pure (.refl c))
    refine looks_nextIs.bind fun b => ?_
    cases b with
    | true =>
      refine (plain_paramItem hg typed s c₁).bind fun s' c₂ h₂ => ?_
      exact (ih s' c₂).mono fun _ c₃ h₃ => h₁.reaches.trans (h₂.1.reaches.trans h₃)
    | false => exact post_pure h₁.reaches

theorem reaches_paramList (typed : Bool) (closer : Operator) (c : Cursor) :
    Post (paramList g typed closer) c fun _ c' => c.Reaches c' := by
  refine looks_isNext.bind fun b => ?_
  cases b with
  | true => exact post_pure (.refl c)
  | false =>
    refine looks_nextIs.bind fun b => ?_
    cases b with
    | true =>
      refine (plain_paramItem hg typed _ c).bind fun s c₁ h₁ => ?_
      refine (reaches_paramItems hg typed g.fuel s c₁).bind fun s' c₂ h₂ => ?_
      have h := h₁.1.reaches.trans h₂
      simp only
      split
      · exact post_hold.bind fun _ c₃ h₃ => post_pure (h.trans h₃.reaches_nil)
      · exact post_pure h
    | false => exact post_unexpected

/-- A lambda behind its word. -/
theorem told_lambda {c₀ : Cursor} (h₀ : c₀.Passes c) :
    Post (lambda g c₀.here) c fun e c' => c.Reaches c' ∧ Told c₀ c' e := by
  refine (reaches_paramList hg false .colon c).bind fun params c₁ h₁ => ?_
  refine Post.expect rfl fun c₂ h₂ => ?_
  refine (hg.test c₂).bind fun body c₃ h₃ => ?_
  refine (reaches_checkNames params c₃).bind fun _ c₄ h₄ => ?_
  have h := h₁.trans (h₂.trans (h₃.1.trans h₄).reaches).reaches
  exact Post.span (post_pure ⟨h, told_plain (h₀.trans h) rfl rfl⟩)

theorem told_test : Item (test g) Told := by
  intro c
  refine Post.here ?_
  refine Post.accept rfl (fun c₁ h₁ => ?_) ?_
  · exact (told_lambda hg h₁).mono fun e c' h => ⟨h.2.passes, h.2⟩
  refine (told_disjunction hg c).bind fun body c₁ h₁ => ?_
  refine Post.accept rfl (fun c₂ h₂ => ?_) (post_pure h₁)
  refine (told_disjunction hg c₂).bind fun condition c₃ h₃ => ?_
  refine Post.expect rfl fun c₄ h₄ => ?_
  refine (hg.test c₄).bind fun orelse c₅ h₅ => ?_
  have h := h₁.1.trans (h₂.trans (h₃.1.trans (h₄.trans h₅.1.reaches).reaches).reaches).reaches
  exact Post.span (post_pure ⟨h, told_plain h rfl rfl⟩)

end Rules

end Expression

/-- At every level, each rule gives an expression that lies within the words it takes. -/
theorem Grammar.level_tells [CharacterNames] (n : Nat) : (Grammar.level n).Tells := by
  induction n with
  | zero =>
    exact ⟨fun _ => post_unexpected, fun _ => post_unexpected, fun _ => post_unexpected,
      fun _ => post_unexpected, fun _ => post_unexpected⟩
  | succ n ih =>
    exact ⟨Expression.told_test ih, Expression.told_disjunction ih, Expression.told_negation ih,
      Expression.told_operand ih, Expression.formed_factor ih⟩

end Pagewright.Syntax
