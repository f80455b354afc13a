import Pagewright.Proofs.Grammar.Expressions

namespace Pagewright.Syntax

open Syntax.Parser

namespace Expression

variable {g : Grammar} {c : Cursor}

theorem constant?_word {k : TokenKind} {v : Constant} (h : constant? k = some v) :
    k.isLayout = false := by
  cases k with
  | newline | indent | dedent => cases h
  | _ => rfl

/-- What follows a factor with a foreign word in between. -/
theorem formed_after {c₀ c₁ c₂ : Cursor} {e e' : Expr} {t : Token} (h : Formed c₀ c e)
    (ht : c.Takes [t] c₁) (hforeign : t.kind.isForeign = true) (h₁ : c₁.Reaches c₂)
    (htold : Told c₀ c₂ e') : Formed c₀ c₂ e' := by
  obtain ⟨ts, hts, -⟩ := h.shape
  obtain ⟨ts', hts', -⟩ := h₁
  exact htold.formed (hts.trans (ht.trans hts')) (by simp) hforeign

theorem sign?_word {k : TokenKind} {op : UnaryOp} (h : sign? k = some op) :
    k.isLayout = false := by
  cases k with
  | operator o => rfl
  | _ => cases h

section Rules

variable (hg : g.Tells)

include hg

theorem formed_atom : Item (atom g) Formed := by
  intro c
  refine Post.here ?_
  refine Post.kind fun k? hk => ?_
  split
  · exact formed_literals c
  · refine Post.take hk fun t c₁ h₁ hkind => ?_
    have h := h₁.passes (by rw [hkind]; rfl)
    exact Post.span (post_pure ⟨h, formed_whole h rfl h₁ (.reference rfl) (.inr rfl)⟩)
  · refine Post.take hk fun t c₁ h₁ hkind => ?_
    refine (told_afterParen hg (h₁.passes (by rw [hkind]; rfl))).mono fun e c' h => ?_
    exact ⟨h.2.passes, h.2.formed_first h₁ h.1 (by rw [hkind]; decide)⟩
  · refine Post.take hk fun t c₁ h₁ hkind => ?_
    refine (told_afterBracket hg (h₁.passes (by rw [hkind]; rfl))).mono fun e c' h => ?_
    exact ⟨h.2.passes, h.2.formed_first h₁ h.1 (by rw [hkind]; decide)⟩
  · refine Post.take hk fun t c₁ h₁ hkind => ?_
    refine (told_afterBrace hg (h₁.passes (by rw [hkind]; rfl))).mono fun e c' h => ?_
    exact ⟨h.2.passes, h.2.formed_first h₁ h.1 (by rw [hkind]; decide)⟩
  · split
    · rename_i v hv
      refine Post.take hk fun t c₁ h₁ hkind => ?_
      rw [← hkind] at hv
      have h := h₁.passes (constant?_word hv)
      refine Post.span (post_pure ⟨h, formed_whole h rfl h₁ (.constant hv) ?_⟩)
      cases v with
      | int n => exact .inl rfl
      | _ => exact .inr rfl
    · exact post_unexpected
  · exact post_unexpected

theorem formed_trailers {c₀ : Cursor} {e : Expr} (fuel : Nat) (h : Formed c₀ c e) :
    Post (trailers g c₀.here fuel e) c fun e' c' => Formed c₀ c' e' := by
  induction fuel generalizing c e with
  | zero => exact post_pure h
  | succ fuel ih =>
    have hpasses := h.toTold.passes
    refine Post.acceptToken (fun t c₁ h₁ hkind => ?_) ?_
    · have hword := h₁.passes (by rw [hkind]; rfl)
      refine (told_arguments hg c₁).bind fun r c₂ h₂ => ?_
      obtain ⟨args, keywords⟩ := r
      refine Post.expect rfl fun c₃ h₃ => ?_
      have hrest := h₂.1.trans h₃.reaches
      refine Post.span (ih (formed_after h h₁ (by rw [hkind]; decide) hrest ?_))
      refine told_call (hpasses.trans (hword.trans hrest).reaches) rfl fun k hk => ?_
      exact extends_told.before (hpasses.trans hword.reaches).reaches
        (extends_told.after (h₂.2 k hk) h₃.reaches)
    refine Post.acceptToken (fun t c₁ h₁ hkind => ?_) ?_
    · have hword := h₁.passes (by rw [hkind]; rfl)
      refine (told_subscripts hg c₁).bind fun index c₂ h₂ => ?_
      refine Post.expect rfl fun c₃ h₃ => ?_
      have hrest := h₂.1.trans h₃.reaches
      refine Post.span (ih (formed_after h h₁ (by rw [hkind]; decide) hrest.reaches ?_))
      exact told_plain (hpasses.trans (hword.trans hrest.reaches).reaches) rfl rfl
    refine Post.acceptToken (fun t c₁ h₁ hkind => ?_) (post_pure h)
    · have hword := h₁.passes (by rw [hkind]; rfl)
      refine post_identifier.bind fun name c₂ h₂ => ?_
      obtain ⟨t', ht', hname⟩ := h₂
      obtain ⟨ts, hts, -⟩ := h.shape
      have hall := hpasses.trans (hword.trans (ht'.passes hname).reaches).reaches
      refine Post.span (ih ?_)
      exact formed_whole hall rfl (hts.trans (h₁.trans ht')) (.reference rfl) (.inr rfl)

theorem formed_primary : Item (primary g) Formed := by
  intro c
  refine Post.here ?_
  refine (formed_atom hg c).bind fun e c₁ h₁ => ?_
  refine (formed_trailers hg g.fuel h₁.2).mono fun e' c' h => ?_
  exact ⟨h.toTold.passes, h⟩

theorem formed_awaited : Item (awaited g) Formed := by
  intro c
  refine Post.here ?_
  refine Post.acceptToken (fun t c₁ h₁ hkind => ?_) (formed_primary hg c)
  refine (formed_primary hg c₁).bind fun value c₂ h₂ => ?_
  have h := (h₁.passes (by rw [hkind]; rfl)).trans h₂.1.reaches
  have hforeign : t.kind.isForeign = true := by
    rw [hkind]
    decide
  refine Post.span (post_pure ⟨h, Told.formed_first (told_plain h ?_ ?_) h₁ h₂.1.reaches hforeign⟩)
  · rfl
  · rfl

theorem formed_power : Item (power g) Formed := by
  intro c
  refine Post.here ?_
  refine (formed_awaited hg c).bind fun base c₁ h₁ => ?_
  refine Post.acceptToken (fun t c₂ h₂ hkind => ?_) (post_pure h₁)
  refine (hg.factor c₂).bind fun exponent c₃ h₃ => ?_
  have h := h₁.1.trans ((h₂.passes (by rw [hkind]; rfl)).trans h₃.1.reaches).reaches
  have hforeign : t.kind.isForeign = true := by
    rw [hkind]
    decide
  refine Post.span (post_pure ⟨h, formed_after h₁.2 h₂ hforeign h₃.1.reaches ?_⟩)
  exact told_plain h rfl rfl

theorem formed_factor : Item (factor g) Formed := by
  intro c
  refine Post.here ?_
  refine Post.kind fun k? hk => ?_
  split
  · rename_i op hsign
    obtain ⟨k, rfl, hop⟩ := Option.bind_eq_some_iff.mp hsign
    refine Post.take hk fun t c₁ h₁ hkind => ?_
    rw [← hkind] at hop
    refine (hg.factor c₁).bind fun value c₂ h₂ => ?_
    have h := (h₁.passes (sign?_word hop)).trans h₂.1.reaches
    obtain ⟨ts, hts, hshape⟩ := h₂.2.shape
    refine Post.span (post_pure ⟨h, ?_⟩)
    exact formed_whole h rfl (h₁.trans hts) (.signed hop hshape) (.inl rfl)
  · exact formed_power hg c

end Rules

end Expression
end Pagewright.Syntax
