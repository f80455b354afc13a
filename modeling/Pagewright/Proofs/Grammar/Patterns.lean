import Pagewright.Proofs.Grammar.Levels
import Pagewright.Syntax.CasePattern

namespace Pagewright.Syntax

open Syntax.Parser

namespace Pattern

variable {g : Grammar} {c : Cursor}

theorem plain_number : Plain number := by
  intro c
  refine Post.here ?_
  refine looks_nextIs.bind fun b => ?_
  cases b with
  | true =>
    refine Post.kind fun k? hk => ?_
    split
    · rename_i v hv
      obtain ⟨k, rfl, hv⟩ := Option.bind_eq_some_iff.mp hv
      refine Post.take hk fun t c₁ h₁ hkind => ?_
      exact Post.span (post_pure ⟨h₁.passes (hkind ▸ Expression.constant?_word hv), trivial⟩)
    · exact post_unexpected
  | false => exact post_unexpected

/-- A second number behind a sign, which may be missing. -/
theorem plain_signedNumber : Plain signedNumber := by
  have hrest {c₀ c : Cursor} (h₀ : c₀.Passes c) (left : Expr) :
      Post (do
        if ← acceptSymbol .plus then
          let right ← number
          return .binary (← spanFrom c₀.here) left .add right
        else if ← acceptSymbol .minus then
          let right ← number
          return .binary (← spanFrom c₀.here) left .subtract right
        else return left) c fun _ c' => c₀.Passes c' ∧ True := by
    refine Post.accept rfl (fun c₁ h₁ => ?_) ?_
    · refine (plain_number c₁).bind fun right c₂ h₂ => ?_
      exact Post.span (post_pure ⟨h₀.trans (h₁.trans h₂.1.reaches).reaches, trivial⟩)
    refine Post.accept rfl (fun c₁ h₁ => ?_) (post_pure ⟨h₀, trivial⟩)
    refine (plain_number c₁).bind fun right c₂ h₂ => ?_
    exact Post.span (post_pure ⟨h₀.trans (h₁.trans h₂.1.reaches).reaches, trivial⟩)
  intro c
  refine Post.here ?_
  refine Post.accept rfl (fun c₁ h₁ => ?_) ?_
  · refine (plain_number c₁).bind fun value c₂ h₂ => ?_
    exact Post.span (hrest (h₁.trans h₂.1.reaches) _)
  · exact (plain_number c).bind fun left c₁ h₁ => hrest h₁.1 left

theorem reaches_dotted (start fuel : Nat) (e : Expr) (c : Cursor) :
    Post (dotted start fuel e) c fun _ c' => c.Reaches c' := by
  induction fuel generalizing e c with
  | zero => exact post_pure (.refl c)
  | succ fuel ih =>
    refine Post.accept rfl (fun c₁ h₁ => ?_) (post_pure (.refl c))
    refine Post.identifier fun name c₂ h₂ => ?_
    exact Post.span ((ih _ c₂).mono fun _ c₃ h₃ => h₁.reaches.trans (h₂.trans h₃).reaches)

section Items

variable {item : Parser Pattern} (hitem : Plain item)

include hitem

theorem reaches_itemsUpTo (fuel : Nat) (c : Cursor) :
    Post (itemsUpTo item fuel) c fun _ c' => c.Reaches c' := by
  induction fuel generalizing c with
  | zero => exact post_pure (.refl c)
  | succ fuel ih =>
    refine looks_nextIs.bind fun b => ?_
    cases b with
    | true =>
      refine (hitem c).bind fun p c₁ h₁ => ?_
      refine Post.accept rfl (fun c₂ h₂ => ?_) (post_pure h₁.1.reaches)
      refine (ih c₂).bind fun r c₃ h₃ => ?_
      exact post_pure (h₁.1.trans (h₂.trans h₃).reaches).reaches
    | false => exact post_pure (.refl c)

theorem reaches_recordItems (fuel : Nat) (anyNamed : Bool) (c : Cursor) :
    Post (recordItems item fuel anyNamed) c fun _ c' => c.Reaches c' := by
  induction fuel generalizing anyNamed c with
  | zero => exact post_pure (.refl c)
  | succ fuel ih =>
    refine looks_nextIs.bind fun b => ?_
    cases b with
    | true =>
      refine Expression.post_isKeywordNext.bind fun b c' h => ?_
      obtain ⟨rfl, -⟩ := h
      split
      · refine Post.identifier fun name c₁ h₁ => ?_
        refine Post.expect rfl fun c₂ h₂ => ?_
        refine (hitem c₂).bind fun p c₃ h₃ => ?_
        have h := h₁.trans (h₂.trans h₃.1.reaches).reaches
        refine Post.accept rfl (fun c₄ h₄ => ?_) (post_pure h.reaches)
        refine (ih _ c₄).bind fun r c₅ h₅ => ?_
        exact post_pure (h.trans (h₄.trans h₅).reaches).reaches
      · refine (hitem _).bind fun p c₁ h₁ => ?_
        refine Post.accept rfl (fun c₂ h₂ => ?_) (post_pure h₁.1.reaches)
        refine (ih _ c₂).bind fun r c₃ h₃ => ?_
        exact post_pure (h₁.1.trans (h₂.trans h₃).reaches).reaches
    | false => exact post_pure (.refl c)

end Items

theorem singleton?_word {k : TokenKind} {v : Constant} (h : singleton? k = some v) :
    k.isLayout = false := by
  cases k with
  | newline | indent | dedent => cases h
  | _ => rfl

theorem plain_mappingKey : Plain (mappingKey g) := by
  intro c
  refine Post.here ?_
  refine Post.kind fun k? hk => ?_
  split
  · exact (Expression.formed_literals.plain c)
  · refine Post.take hk fun t c₁ h₁ hkind => ?_
    have h := h₁.passes (by rw [hkind]; rfl)
    refine Post.span ?_
    refine looks_isNext.bind fun b => ?_
    cases b with
    | true => exact (reaches_dotted _ _ _ c₁).mono fun _ c₂ h₂ => ⟨h.trans h₂, trivial⟩
    | false => exact post_unexpected
  · split
    · rename_i v hv
      refine Post.take hk fun t c₁ h₁ hkind => ?_
      exact Post.span (post_pure ⟨h₁.passes (hkind ▸ singleton?_word hv), trivial⟩)
    · exact plain_signedNumber c
  · exact post_unexpected

section Closed

variable {item : Parser Pattern} (hitem : Plain item)

include hitem

theorem reaches_mappingItems (fuel : Nat) (c : Cursor) :
    Post (mappingItems g item fuel) c fun _ c' => c.Reaches c' := by
  induction fuel generalizing c with
  | zero => exact post_pure (.refl c)
  | succ fuel ih =>
    refine Post.accept rfl (fun c₁ h₁ => ?_) ?_
    · refine Post.identifier fun name c₂ h₂ => ?_
      refine (reaches_accept rfl c₂).bind fun b c₃ h₃ => ?_
      exact post_pure (h₁.trans (h₂.trans h₃).reaches).reaches
    refine looks_isNext.bind fun b => ?_
    cases b with
    | true => exact post_pure (.refl c)
    | false =>
      refine (plain_mappingKey c).bind fun key c₁ h₁ => ?_
      refine Post.expect rfl fun c₂ h₂ => ?_
      refine (hitem c₂).bind fun p c₃ h₃ => ?_
      have h := h₁.1.trans (h₂.trans h₃.1.reaches).reaches
      refine Post.accept rfl (fun c₄ h₄ => ?_) (post_pure h.reaches)
      refine (ih c₄).bind fun r c₅ h₅ => ?_
      exact post_pure (h.trans (h₄.trans h₅).reaches).reaches

theorem reaches_afterName (start : Nat) (id : Text) (c : Cursor) :
    Post (afterName g item start id) c fun _ c' => c.Reaches c' := by
  refine Post.span ?_
  refine looks_isNext.bind fun isDotted => ?_
  refine (reaches_dotted start g.fuel _ c).bind fun callee c₁ h₁ => ?_
  refine Post.accept rfl (fun c₂ h₂ => ?_) ?_
  · refine (reaches_recordItems hitem g.fuel false c₂).bind fun r c₃ h₃ => ?_
    refine Post.expect rfl fun c₄ h₄ => ?_
    exact Post.span (post_pure (h₁.trans (h₂.trans (h₃.trans h₄.reaches)).reaches))
  · cases isDotted with
    | true => exact Post.span (post_pure h₁)
    | false => exact Post.span (post_pure h₁)

theorem plain_closed : Plain (closed g item) := by
  intro c
  refine Post.here ?_
  refine Post.kind fun k? hk => ?_
  split
  · refine (Expression.formed_literals c).bind fun e c₁ h₁ => ?_
    exact Post.span (post_pure ⟨h₁.1, trivial⟩)
  · refine Post.take hk fun t c₁ h₁ hkind => ?_
    have h := h₁.passes (by rw [hkind]; rfl)
    exact (reaches_afterName hitem _ _ c₁).mono fun _ c₂ h₂ => ⟨h.trans h₂, trivial⟩
  · refine Post.take hk fun t c₁ h₁ hkind => ?_
    have h := h₁.passes (by rw [hkind]; rfl)
    refine Post.identifier fun name c₂ h₂ => ?_
    exact Post.span (post_pure ⟨h.trans h₂.reaches, trivial⟩)
  · refine Post.take hk fun t c₁ h₁ hkind => ?_
    have h := h₁.passes (by rw [hkind]; rfl)
    refine (reaches_itemsUpTo hitem g.fuel c₁).bind fun r c₂ h₂ => ?_
    split
    · refine Post.expect rfl fun c₃ h₃ => ?_
      exact post_pure ⟨h.trans (h₂.trans h₃.reaches), trivial⟩
    · refine Post.expect rfl fun c₃ h₃ => ?_
      exact Post.span (post_pure ⟨h.trans (h₂.trans h₃.reaches), trivial⟩)
  · refine Post.take hk fun t c₁ h₁ hkind => ?_
    have h := h₁.passes (by rw [hkind]; rfl)
    refine (reaches_itemsUpTo hitem g.fuel c₁).bind fun r c₂ h₂ => ?_
    refine Post.expect rfl fun c₃ h₃ => ?_
    exact Post.span (post_pure ⟨h.trans (h₂.trans h₃.reaches), trivial⟩)
  · refine Post.take hk fun t c₁ h₁ hkind => ?_
    have h := h₁.passes (by rw [hkind]; rfl)
    refine (reaches_mappingItems hitem g.fuel c₁).bind fun r c₂ h₂ => ?_
    refine Post.expect rfl fun c₃ h₃ => ?_
    exact Post.span (post_pure ⟨h.trans (h₂.trans h₃.reaches), trivial⟩)
  · split
    · rename_i v hv
      refine Post.take hk fun t c₁ h₁ hkind => ?_
      exact Post.span (post_pure ⟨h₁.passes (hkind ▸ singleton?_word hv), trivial⟩)
    · refine (plain_signedNumber c).bind fun e c₁ h₁ => ?_
      exact Post.span (post_pure ⟨h₁.1, trivial⟩)
  · exact post_unexpected

theorem plain_whole : Plain (whole g item) := by
  intro c
  refine Post.here ?_
  refine (plain_closed hitem c).bind fun first c₁ h₁ => ?_
  refine (post_manyWhile extends_true (plain_closed hitem) (reaches_accept rfl) g.fuel c₁).bind
    fun rest c₂ h₂ => ?_
  have h := h₁.1.trans h₂.1
  have hname (p : Pattern) : Post (do
      if ← acceptWord .asWord then
        let name ← identifier
        if name = wildcard then hold ⟨.wildcardTarget, c.here⟩
        return .alias (← spanFrom c.here) p name
      else return p) c₂ fun _ c' => c.Passes c' ∧ True := by
    refine Post.accept rfl (fun c₃ h₃ => ?_) (post_pure ⟨h, trivial⟩)
    refine Post.identifier fun name c₄ h₄ => ?_
    have h' := h.trans (h₃.trans h₄.reaches).reaches
    simp only
    split
    · refine post_hold.bind fun _ c₅ h₅ => ?_
      exact Post.span (post_pure ⟨h'.trans h₅.reaches_nil, trivial⟩)
    · exact Post.span (post_pure ⟨h', trivial⟩)
  simp only
  split
  · exact hname first
  · exact Post.span (hname _)

end Closed

theorem plain_level (n : Nat) : Plain (level g n) := by
  induction n with
  | zero => exact fun _ => post_unexpected
  | succ n ih => exact plain_whole ih

theorem plain_ofCase : Plain (ofCase g) := by
  intro c
  refine Post.here ?_
  refine (post_items extends_true (plain_level g.fuel) g.fuel starts c).bind fun r c₁ h₁ => ?_
  split
  · exact post_pure ⟨h₁.1, trivial⟩
  · exact Post.span (post_pure ⟨h₁.1, trivial⟩)

end Pattern
end Pagewright.Syntax
