import Pagewright.Proofs.Grammar.Patterns
import Pagewright.Proofs.Tree.Blocks
import Pagewright.Syntax.Statement

namespace Pagewright.Syntax

open Syntax.Parser Expression

/-- What a `from` import starts with: its first word, and then a name, or a dot if it is
relative. -/
def OpensImport (level : Nat) (ts : List Token) : Prop :=
  ∃ first second later, ts = first :: second :: later ∧ first.kind = .keyword .fromWord ∧
    (level = 0 ∧ (∃ id, second.kind = .name id) ∨
      level ≠ 0 ∧ (second.kind = .operator .dot ∨ second.kind = .operator .threeDots))

/-- A statement without blocks that takes all words between two cursors. -/
structure ToldStmt (c c' : Cursor) (s : Stmt) : Prop where
  passes : c.Passes c'
  span : s.span = ⟨c.here, c'.stop⟩
  blocks : s.blocks = []
  value : ∀ span v, s = .return span (some v) → ∃ c₁, c.Passes c₁ ∧ Told c₁ c' v
  alone : ∀ span e, s = .expr span e → Told c c' e
  imports : ∀ span module level names, s = .importFrom span module level names →
    ∃ ts, c.Takes ts c' ∧ OpensImport level ts

namespace Statement

variable {g : Grammar} {c : Cursor}

def isOther : Stmt → Bool
  | .return _ (some _) | .expr .. | .importFrom .. => false
  | _ => true

theorem toldStmt_other {c' : Cursor} {s : Stmt} (h : c.Passes c')
    (hspan : s.span = ⟨c.here, c'.stop⟩) (hblocks : s.blocks = []) (hs : isOther s = true) :
    ToldStmt c c' s := by
  refine ⟨h, hspan, hblocks, ?_, ?_, ?_⟩
  · rintro span v rfl
    cases hs
  · rintro span e rfl
    cases hs
  · rintro span module level names rfl
    cases hs

theorem plain_aliased {name : Parser Text} (h : Plain name) : Plain (aliased name) := by
  intro c
  refine (h c).bind fun id c₁ h₁ => ?_
  refine Post.accept rfl (fun c₂ h₂ => ?_) (post_pure h₁)
  refine Post.identifier fun bound c₃ h₃ => ?_
  exact post_pure ⟨h₁.1.trans (h₂.trans h₃.reaches).reaches, trivial⟩

theorem plain_dottedName : Plain (dottedName g) := by
  intro c
  refine Post.identifier fun head c₁ h₁ => ?_
  refine (post_manyWhile extends_true plain_identifier (reaches_accept rfl) g.fuel c₁).bind
    fun rest c₂ h₂ => ?_
  exact post_pure ⟨h₁.trans h₂.1, trivial⟩

/-- A dotted name starts with a name. -/
theorem post_dottedName (c : Cursor) : Post (dottedName g) c fun _ c' =>
    ∃ t id c₁, c.Takes [t] c₁ ∧ t.kind = .name id ∧ c₁.Reaches c' := by
  have hhead : Post identifier c fun _ c' => ∃ t id, c.Takes [t] c' ∧ t.kind = .name id := by
    refine Post.kind fun k? hk => ?_
    split
    · exact Post.take hk fun t c' ht hkind => post_pure ⟨t, _, ht, hkind⟩
    · exact post_unexpected
  refine hhead.bind fun head c₁ h₁ => ?_
  obtain ⟨t, id, ht, hkind⟩ := h₁
  refine (post_manyWhile extends_true plain_identifier (reaches_accept rfl) g.fuel c₁).bind
    fun rest c₂ h₂ => ?_
  exact post_pure ⟨t, id, c₁, ht, hkind, h₂.1⟩

/-- Where dots are counted, the first of them is taken. -/
theorem post_leadingDots (fuel : Nat) (c : Cursor) :
    Post (leadingDots fuel) c fun level c' => level = 0 ∧ c' = c ∨ level ≠ 0 ∧ ∃ t c₁,
      c.Takes [t] c₁ ∧ (t.kind = .operator .dot ∨ t.kind = .operator .threeDots) ∧
        c₁.Reaches c' := by
  have hmore {c c' : Cursor} {level : Nat} (h : level = 0 ∧ c' = c ∨ level ≠ 0 ∧ ∃ t c₁,
      c.Takes [t] c₁ ∧ (t.kind = .operator .dot ∨ t.kind = .operator .threeDots) ∧
        c₁.Reaches c') : c.Reaches c' := by
    rcases h with ⟨-, rfl⟩ | ⟨-, t, c₁, ht, hkind, h₁⟩
    · exact .refl _
    · have hword : t.kind.isLayout = false := by rcases hkind with h | h <;> rw [h] <;> rfl
      exact ((ht.passes hword).trans h₁).reaches
  induction fuel generalizing c with
  | zero => exact post_pure (.inl ⟨rfl, rfl⟩)
  | succ fuel ih =>
    refine Post.acceptToken (fun t c₁ ht hkind => ?_) ?_
    · refine (ih c₁).bind fun n c₂ h₂ => post_pure ?_
      exact .inr ⟨Nat.succ_ne_zero n, t, c₁, ht, .inl hkind, hmore h₂⟩
    refine Post.acceptToken (fun t c₁ ht hkind => ?_) (post_pure (.inl ⟨rfl, rfl⟩))
    refine (ih c₁).bind fun n c₂ h₂ => post_pure ?_
    exact .inr ⟨by omega, t, c₁, ht, .inr hkind, hmore h₂⟩

theorem plain_importedNames : Plain (importedNames g) := by
  intro c
  refine Post.accept rfl (fun c₁ h₁ => post_pure ⟨h₁, trivial⟩) ?_
  refine Post.accept rfl (fun c₁ h₁ => ?_) ?_
  · refine (post_items extends_true (plain_aliased plain_identifier) g.fuel isName c₁).bind
      fun r c₂ h₂ => ?_
    refine Post.expect rfl fun c₃ h₃ => ?_
    exact post_pure ⟨h₁.trans (h₂.1.trans h₃.reaches).reaches, trivial⟩
  · exact (post_separated extends_true (plain_aliased plain_identifier) g.fuel c).mono
      fun _ _ h => ⟨h.1, trivial⟩

/-- A `from` import covers its words, the first of them included. -/
theorem told_importFrom {c₀ : Cursor} {first : Token} (h₀ : c₀.Takes [first] c)
    (hfirst : first.kind = .keyword .fromWord) :
    Post (importFrom g c₀.here) c fun s c' => ToldStmt c₀ c' s := by
  have hrest {second : Token} {c₁ c₂ : Cursor} {level : Nat} (h₁ : c.Takes [second] c₁)
      (hlevel : level = 0 ∧ (∃ id, second.kind = .name id) ∨
        level ≠ 0 ∧ (second.kind = .operator .dot ∨ second.kind = .operator .threeDots))
      (h₂ : c₁.Reaches c₂) (module : Option Text) : Post (do
        expectWord .importWord
        let names ← importedNames g
        return Stmt.importFrom (← spanFrom c₀.here) module level names) c₂
          fun s c' => ToldStmt c₀ c' s := by
    refine Post.expect rfl fun c₃ h₃ => ?_
    refine (plain_importedNames c₃).bind fun names c₄ h₄ => Post.span (post_pure ?_)
    obtain ⟨ts, hts, hwords⟩ := h₂.trans (h₃.trans h₄.1.reaches).reaches
    have htakes := h₀.trans (h₁.trans hts)
    have hsecond : second.kind.isLayout = false := by
      rcases hlevel with ⟨-, id, h⟩ | ⟨-, h | h⟩ <;> rw [h] <;> rfl
    refine ⟨⟨_, htakes, by simp, ?_⟩, rfl, rfl, by rintro _ _ ⟨⟩, by rintro _ _ ⟨⟩, ?_⟩
    · simp only [List.singleton_append, List.forall_mem_cons]
      exact ⟨by rw [hfirst]; rfl, hsecond, hwords⟩
    · rintro _ _ _ _ ⟨⟩
      exact ⟨_, htakes, first, second, ts, rfl, hfirst, hlevel⟩
  refine (post_leadingDots g.fuel c).bind fun level c₁ h₁ => looks_nextIs.bind fun b => ?_
  rcases h₁ with ⟨rfl, rfl⟩ | ⟨hlevel, t, c₂, ht, hkind, h₂⟩
  · refine Post.ite (fun _ => ?_) fun h => absurd (by simp) h
    have hmodule : Post (some <$> dottedName g) c₁ fun _ c' =>
        ∃ t id c₂, c₁.Takes [t] c₂ ∧ t.kind = .name id ∧ c₂.Reaches c' :=
      Post.map (post_dottedName c₁)
    refine hmodule.bind fun module c₂ h₂ => ?_
    obtain ⟨t, id, c₃, ht, hkind, h₃⟩ := h₂
    exact hrest ht (.inl ⟨rfl, id, hkind⟩) h₃ module
  · split
    · refine (plain_dottedName.map some c₁).bind fun module c₃ h₃ => ?_
      exact hrest ht (.inr ⟨hlevel, hkind⟩) (h₂.trans h₃.1.reaches) module
    · exact hrest ht (.inr ⟨hlevel, hkind⟩) h₂ none

/-- A keyword is a word, whichever it is. -/
theorem passes_keyword {w : Keyword} {t : Token} {c₁ : Cursor} (h : c.Takes [t] c₁)
    (hk : t.kind = .keyword w) : c.Passes c₁ :=
  h.passes (hk ▸ rfl)

section Rules

variable (hg : g.Tells)

include hg

theorem plain_typeParam : Plain (typeParam g) := by
  intro c
  refine Post.here ?_
  refine Post.accept rfl (fun c₁ h₁ => ?_) ?_
  · refine Post.identifier fun name c₂ h₂ => ?_
    exact Post.span (post_pure ⟨h₁.trans h₂.reaches, trivial⟩)
  refine Post.accept rfl (fun c₁ h₁ => ?_) ?_
  · refine Post.identifier fun name c₂ h₂ => ?_
    exact Post.span (post_pure ⟨h₁.trans h₂.reaches, trivial⟩)
  refine Post.identifier fun name c₁ h₁ => ?_
  refine Post.optionalAfter rfl hg.test.plain fun bound c₂ h₂ => ?_
  exact Post.span (post_pure ⟨h₁.trans h₂, trivial⟩)

theorem reaches_typeParams (c : Cursor) :
    Post (typeParams g) c fun _ c' => c.Reaches c' := by
  refine Post.accept rfl (fun c₁ h₁ => ?_) (post_pure (.refl c))
  refine (post_items extends_true (plain_typeParam hg) g.fuel startsTypeParam c₁).bind
    fun r c₂ h₂ => ?_
  refine Post.expect rfl fun c₃ h₃ => ?_
  exact post_pure (h₁.trans (h₂.1.trans h₃.reaches).reaches).reaches

theorem told_valueStatement (c : Cursor) :
    Post (valueStatement g) c fun s c' => ToldStmt c c' s := by
  refine Post.here ?_
  refine (post_items extends_told (told_testOrStar hg) g.fuel startsItem c).bind fun r c₁ h₁ => ?_
  obtain ⟨found, isOpen⟩ := r
  refine (post_grouped h₁.1 h₁.2).bind fun target c' h => ?_
  obtain ⟨rfl, htarget⟩ := h
  refine Post.kind fun k? hk => ?_
  split
  · rename_i op hop
    obtain ⟨k, rfl, hop⟩ := Option.bind_eq_some_iff.mp hop
    have hword : k.isLayout = false := by
      cases k with
      | operator o => rfl
      | _ => cases hop
    refine Post.take hk fun t c₂ h₂ hkind => ?_
    refine (told_assigned hg c₂).bind fun value c₃ h₃ => ?_
    have h := h₁.1.trans ((h₂.passes (hkind ▸ hword)).trans h₃.1.reaches).reaches
    exact Post.span (post_pure (toldStmt_other h rfl rfl rfl))
  · refine looks_isNext.bind fun b => ?_
    split
    · refine Post.expect rfl fun c₂ h₂ => ?_
      refine (hg.test c₂).bind fun hint c₃ h₃ => ?_
      refine Post.optionalAfter rfl (told_assigned hg).plain fun value c₄ h₄ => ?_
      have h := h₁.1.trans (h₂.trans (h₃.1.trans h₄).reaches).reaches
      exact Post.span (post_pure (toldStmt_other h rfl rfl rfl))
    · refine (post_manyWhile extends_told (told_assigned hg) (reaches_accept rfl) g.fuel _).bind
        fun values c₂ h₂ => ?_
      have h := h₁.1.trans h₂.1
      split
      · refine Post.span (post_pure ⟨h, rfl, rfl, ?_, ?_, ?_⟩)
        · intro span v hv
          cases hv
        · intro span e he
          cases he
          exact extends_told.after htarget h₂.1
        · intro span module level names hs
          cases hs
      · exact Post.span (post_pure (toldStmt_other h rfl rfl rfl))

theorem reaches_optionalTest (c : Cursor) :
    Post (optionalTest g) c fun _ c' => c.Reaches c' := by
  refine looks_nextIs.bind fun b => ?_
  split
  · exact (hg.test.plain.map some c).mono fun _ _ h => h.1.reaches
  · exact post_pure (.refl c)

theorem told_raised {c₀ : Cursor} (h₀ : c₀.Passes c) :
    Post (raised g c₀.here) c fun s c' => ToldStmt c₀ c' s := by
  refine (reaches_optionalTest hg c).bind fun exception c₁ h₁ => ?_
  have h := h₀.trans h₁
  split
  · exact Post.span (post_pure (toldStmt_other h rfl rfl rfl))
  · refine Post.optionalAfter rfl hg.test.plain fun cause c₂ h₂ => ?_
    exact Post.span (post_pure (toldStmt_other (h.trans h₂) rfl rfl rfl))

theorem told_returned {c₀ : Cursor} (h₀ : c₀.Passes c) :
    Post (do
      let value ← if ← nextIs startsItem then some <$> testList g else pure none
      return Stmt.return (← spanFrom c₀.here) value) c fun s c' => ToldStmt c₀ c' s := by
  refine looks_nextIs.bind fun b => ?_
  split
  · have hvalue : Post (some <$> testList g) c
        fun v c' => c.Passes c' ∧ ∀ e, v = some e → Told c c' e :=
      Post.map ((told_testList hg c).mono fun e c' h => ⟨h.1, fun e' he => by cases he; exact h.2⟩)
    refine hvalue.bind fun v c₁ h₁ => Post.span (post_pure ?_)
    refine ⟨h₀.trans h₁.1.reaches, rfl, rfl, ?_, ?_, ?_⟩
    · rintro span e ⟨⟩
      exact ⟨c, h₀, h₁.2 e rfl⟩
    · rintro span e ⟨⟩
    · rintro span module level names ⟨⟩
  · refine Post.pure_bind (Post.span (post_pure ?_))
    exact toldStmt_other h₀ rfl rfl rfl

/-- A statement within a line covers its words, whichever word it starts with. -/
theorem told_simple : Post (simple g) c fun s c' => ToldStmt c c' s := by
  refine Post.here (Post.kind fun k? hk => ?_)
  split
  · rename_i w
    have htake {f : Unit → Parser Stmt} (h : ∀ c', c.Passes c' →
        Post (f ()) c' fun s c'' => ToldStmt c c'' s) :
        Post (take >>= f) c fun s c' => ToldStmt c c' s :=
      Post.take hk fun t c' ht hkind => h c' (passes_keyword ht hkind)
    split
    · exact htake fun c₁ h₁ => Post.span (post_pure (toldStmt_other h₁ rfl rfl rfl))
    · exact htake fun c₁ h₁ => Post.span (post_pure (toldStmt_other h₁ rfl rfl rfl))
    · exact htake fun c₁ h₁ => Post.span (post_pure (toldStmt_other h₁ rfl rfl rfl))
    · refine htake fun c₁ h₁ => ?_
      refine (post_items extends_told (told_operandOrStar hg) g.fuel startsItem c₁).bind
        fun r c₂ h₂ => ?_
      exact Post.span (post_pure (toldStmt_other (h₁.trans h₂.1.reaches) rfl rfl rfl))
    · exact htake fun c₁ h₁ => told_returned hg h₁
    · refine (told_yielded hg c).bind fun value c₁ h₁ => Post.span (post_pure ?_)
      exact ⟨h₁.1, rfl, rfl, by rintro _ _ ⟨⟩, by rintro _ _ ⟨⟩; exact h₁.2,
        by rintro _ _ _ _ ⟨⟩⟩
    · exact htake fun c₁ h₁ => told_raised hg h₁
    · refine htake fun c₁ h₁ => ?_
      refine (post_separated extends_true (plain_aliased plain_dottedName) g.fuel c₁).bind
        fun names c₂ h₂ => ?_
      exact Post.span (post_pure (toldStmt_other (h₁.trans h₂.1.reaches) rfl rfl rfl))
    · exact Post.take hk fun t c₁ h₁ hkind => told_importFrom h₁ hkind
    · refine htake fun c₁ h₁ => ?_
      refine (post_separated extends_true plain_identifier g.fuel c₁).bind fun names c₂ h₂ => ?_
      exact Post.span (post_pure (toldStmt_other (h₁.trans h₂.1.reaches) rfl rfl rfl))
    · refine htake fun c₁ h₁ => ?_
      refine (post_separated extends_true plain_identifier g.fuel c₁).bind fun names c₂ h₂ => ?_
      exact Post.span (post_pure (toldStmt_other (h₁.trans h₂.1.reaches) rfl rfl rfl))
    · refine htake fun c₁ h₁ => (hg.test c₁).bind fun test c₂ h₂ => ?_
      refine Post.optionalAfter rfl hg.test.plain fun message c₃ h₃ => ?_
      have h := h₁.trans (h₂.1.trans h₃).reaches
      exact Post.span (post_pure (toldStmt_other h rfl rfl rfl))
    · refine htake fun c₁ h₁ => Post.identifier fun name c₂ h₂ => ?_
      refine (reaches_typeParams hg c₂).bind fun params c₃ h₃ => ?_
      refine Post.expect rfl fun c₄ h₄ => (hg.test c₄).bind fun value c₅ h₅ => ?_
      have h := h₁.trans ((h₂.trans h₃).trans (h₄.trans h₅.1.reaches).reaches).reaches
      exact Post.span (post_pure (toldStmt_other h rfl rfl rfl))
    · exact told_valueStatement hg c
  · exact told_valueStatement hg c

end Rules

end Statement
end Pagewright.Syntax
