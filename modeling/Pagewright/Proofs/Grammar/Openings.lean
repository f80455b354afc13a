import Pagewright.Proofs.Grammar.Levels

namespace Pagewright.Syntax

namespace Cursor

def StartsName (c : Cursor) : Prop :=
  ∃ id, c.kind? = some (.name id)

theorem Takes.kind?_eq {c c' : Cursor} {t : Token} {ts : List Token} (h : c.Takes (t :: ts) c') :
    c.kind? = some t.kind := by
  simp [kind?, h.tokens]

end Cursor

structure Whole (c c' : Cursor) (e : Expr) : Prop where
  span : e.span = ⟨c.here, c'.stop⟩
  opens : ∃ ts, c.Takes ts c' ∧ ts ≠ [] ∧ (∀ t ∈ ts, t.kind.isLayout = false) ∧ Opens ts e

def Within (c c' : Cursor) (e : Expr) : Prop :=
  ∃ c₁ c₂, c.Reaches c₁ ∧ Whole c₁ c₂ e ∧ c₂.Reaches c'

/-- An operand between two cursors. Behind brackets its words are some of those between; where a
name comes first they are all of them. -/
structure Held (c c' : Cursor) (e : Expr) : Prop where
  within : Within c c' e
  whole : c.StartsName → Whole c c' e

section Ways

variable {c c' c₁ c₂ : Cursor} {e e' : Expr} {t : Token}

theorem Whole.passes (h : Whole c c' e) : c.Passes c' := by
  obtain ⟨ts, hts, hne, hwords, -⟩ := h.opens
  exact ⟨ts, hts, hne, hwords⟩

theorem Whole.within (h : Whole c c' e) : Within c c' e :=
  ⟨c, c', .refl c, h, .refl c'⟩

theorem Whole.held (h : Whole c c' e) : Held c c' e :=
  ⟨h.within, fun _ => h⟩

theorem Within.passes (h : Within c c' e) : c.Passes c' := by
  obtain ⟨c₁, c₂, h₁, h, h₂⟩ := h
  exact (h₁.passes h.passes).trans h₂

theorem Held.passes (h : Held c c' e) : c.Passes c' :=
  h.within.passes

theorem extends_within : Parser.Extends Within := by
  constructor
  · intro c c₁ c₂ e h ⟨d, d', hd, hwhole, hd'⟩
    exact ⟨d, d', h.trans hd, hwhole, hd'⟩
  · intro c c₁ c₂ e ⟨d, d', hd, hwhole, hd'⟩ h
    exact ⟨d, d', hd, hwhole, hd'.trans h⟩

/-- An expression whose first word is no name. -/
theorem whole_other (ht : c.Takes [t] c₁) (hword : t.kind.isLayout = false)
    (hkind : ∀ id, t.kind ≠ .name id) (h : c₁.Reaches c') (hspan : e.span = ⟨c.here, c'.stop⟩) :
    Whole c c' e := by
  obtain ⟨ts, hts, hwords⟩ := h
  refine ⟨hspan, t :: ts, ht.trans hts, List.cons_ne_nil t ts, ?_, .other hkind⟩
  exact List.forall_mem_cons.mpr ⟨hword, hwords⟩

/-- Behind a word that is no name it does not matter where an operand stops. -/
theorem Within.held (h : Within c₁ c₂ e) (ht : c.Takes [t] c₁) (hword : t.kind.isLayout = false)
    (hkind : ∀ id, t.kind ≠ .name id) (h₂ : c₂.Reaches c') : Held c c' e := by
  refine ⟨extends_within.before (ht.passes hword).reaches (extends_within.after h h₂), ?_⟩
  intro ⟨id, hid⟩
  rw [ht.kind?_eq] at hid
  exact absurd (Option.some.inj hid) (hkind id)

/-- An operand and more words behind it are one expression, which opens as the operand does. -/
theorem Held.grow {us : List Token} (h : Held c c₁ e) (hus : c₁.Takes us c')
    (hwords : ∀ x ∈ us, x.kind.isLayout = false) (hspan : e'.span = ⟨c.here, c'.stop⟩)
    (hopens : ∀ ts, Opens ts e → Opens (ts ++ us) e') : Held c c' e' := by
  apply Whole.held
  by_cases hname : c.StartsName
  · obtain ⟨ts, hts, hne, hts', ho⟩ := (h.whole hname).opens
    refine ⟨hspan, ts ++ us, hts.trans hus, by simp [hne], ?_, hopens ts ho⟩
    exact List.forall_mem_append.mpr ⟨hts', hwords⟩
  · obtain ⟨ts, hts, hne, hts'⟩ := h.passes
    obtain ⟨t, ts, rfl⟩ := List.exists_cons_of_ne_nil hne
    refine ⟨hspan, t :: ts ++ us, hts.trans hus, by simp, ?_, .other ?_⟩
    · exact List.forall_mem_append.mpr ⟨hts', hwords⟩
    · intro id hid
      apply hname
      exact ⟨id, by rw [hts.kind?_eq, hid]⟩

/-- A first operand goes on behind the word that joins it to others. -/
theorem Held.joined (h : Held c c₁ e) (ht : c₁.Takes [t] c₂) (hjoins : t.kind.joins = true)
    (h₂ : c₂.Reaches c') (hfirst : e'.first? = some e) (hspan : e'.span = ⟨c.here, c'.stop⟩) :
    Held c c' e' := by
  obtain ⟨us, hus, hwords⟩ := h₂
  refine h.grow (ht.trans hus) ?_ hspan ?_
  · exact List.forall_mem_cons.mpr ⟨TokenKind.isLayout_of_joins hjoins, hwords⟩
  · intro ts hts
    exact .joined hfirst hts hjoins

end Ways

def Holds (p : Parser Expr) : Prop :=
  ∀ c, Parser.Post p c fun e c' => Held c c' e

/-- The rules of a level that an expression in brackets is read by. -/
structure Grammar.Holds (g : Grammar) : Prop where
  test : Syntax.Holds g.test
  operand : Syntax.Holds g.operand

namespace Expression

open Syntax.Parser

variable {g : Grammar} {c c₀ : Cursor}

section Rules

variable (hg : g.Tells) (hheld : g.Holds)

include hg hheld

omit hg in
/-- The name that a colon and an equals sign bind comes first, whatever the value is. -/
theorem within_named : Post (named g) c fun e c' => Within c c' e := by
  refine Post.here ?_
  refine post_bindsName.bind fun b c' h => ?_
  obtain ⟨rfl, hsecond⟩ := h
  cases b with
  | true =>
    refine post_identifier.bind fun target c₁ h₁ => ?_
    obtain ⟨t, ht, hword⟩ := h₁
    refine Post.take (ht.kind?_of_second.trans (hsecond rfl)) fun x c₂ h₂ hkind => ?_
    refine (hheld.test c₂).bind fun value c₃ h₃ => post_pure ?_
    obtain ⟨d, d', hd, hwhole, hd'⟩ := h₃.within
    obtain ⟨us, hus, hwords⟩ := hd.trans hwhole.passes.reaches
    have htakes := (ht.trans h₂).trans hus
    refine ⟨_, d', .refl _, ⟨?_, t :: x :: us, htakes, by simp, ?_, .bound hkind⟩, hd'⟩
    · rw [hwhole.span]
      rfl
    · have hx : x.kind.isLayout = false := by
        rw [hkind]
        rfl
      exact List.forall_mem_cons.mpr ⟨hword, List.forall_mem_cons.mpr ⟨hx, hwords⟩⟩
  | false => exact (hheld.test _).mono fun e c' h => h.within

omit hheld in
theorem within_starred : Post (starred g) c fun e c' => Within c c' e := by
  refine Post.here ?_
  refine Post.expectToken fun t c₁ h₁ hkind => ?_
  refine (hg.operand c₁).bind fun value c₂ h₂ => Post.span (post_pure ?_)
  exact (whole_other h₁ (by rw [hkind]; rfl) (by simp [hkind]) h₂.1.reaches rfl).within

theorem within_namedOrStar : Post (namedOrStar g) c fun e c' => Within c c' e := by
  refine looks_isNext.bind fun b => ?_
  cases b with
  | true => exact within_starred hg
  | false => exact within_named hheld

omit hheld in
/-- A `yield` starts with its word and stays within its words. -/
theorem within_yielded : Post (yielded g) c fun e c' => Within c c' e := by
  refine Post.here ?_
  refine Post.expectToken fun t c₁ h₁ hkind => ?_
  have hword : t.kind.isLayout = false := by
    rw [hkind]
    rfl
  have hwhole {c' : Cursor} {e : Expr} (h : c₁.Reaches c') (hspan : e.span = ⟨c.here, c'.stop⟩) :
      Within c c' e := (whole_other h₁ hword (by simp [hkind]) h hspan).within
  refine Post.accept rfl (fun c₂ h₂ => ?_) ?_
  · refine (hg.test c₂).bind fun value c₃ h₃ => Post.span (post_pure ?_)
    exact hwhole (h₂.trans h₃.1.reaches).reaches rfl
  · refine looks_nextIs.bind fun b => ?_
    cases b with
    | true =>
      refine (told_testList hg c₁).bind fun value c₂ h₂ => Post.span (post_pure ?_)
      exact hwhole h₂.1.reaches rfl
    | false => exact Post.span (post_pure (hwhole (.refl c₁) rfl))

section Brackets

variable {t : Token} (ht : c₀.Takes [t] c) (hword : t.kind.isLayout = false)
  (hkind : ∀ id, t.kind ≠ .name id)

include ht hword hkind

/-- What stands in round brackets is held as it is, or the brackets belong to it. -/
theorem held_afterParen : Post (afterParen g c₀.here) c fun e c' => Held c₀ c' e := by
  have hwhole {c' : Cursor} {e : Expr} (h : c.Reaches c') (hspan : e.span = ⟨c₀.here, c'.stop⟩) :
      Held c₀ c' e := (whole_other ht hword hkind h hspan).held
  refine Post.here ?_
  refine Post.accept rfl (fun c₁ h₁ => Post.span (post_pure (hwhole h₁.reaches rfl))) ?_
  refine looks_isNext.bind fun b => ?_
  cases b with
  | true =>
    refine (within_yielded hg).bind fun value c₁ h₁ => Post.expect rfl fun c₂ h₂ => post_pure ?_
    exact h₁.held ht hword hkind h₂.reaches
  | false =>
  refine Post.accept rfl (fun c₁ h₁ => ?_) ?_
  · refine (hheld.operand c₁).bind fun value c₂ h₂ => Post.expect rfl fun c₃ h₃ => ?_
    refine post_hold.bind fun _ c₄ h₄ => post_pure ?_
    have hvalue := extends_within.before h₁.reaches h₂.within
    exact hvalue.held ht hword hkind (h₃.reaches.trans h₄.reaches_nil)
  refine (within_namedOrStar hg hheld).bind fun first c₁ h₁ => ?_
  refine looks_nextIs.bind fun b => ?_
  split
  · refine (plain_generators hg c₁).bind fun gs c₂ h₂ => Post.expect rfl fun c₃ h₃ => ?_
    exact Post.span (post_pure (hwhole (h₁.passes.trans (h₂.1.trans h₃.reaches).reaches).reaches rfl))
  · refine (post_moreItems extends_told (told_namedOrStar hg) startsItem g.fuel c₁).bind
      fun r c₂ h₂ => ?_
    obtain ⟨rest, isOpen⟩ := r
    refine Post.expect rfl fun c₃ h₃ => ?_
    have hrest := h₂.1.trans h₃.reaches
    split
    · simp only
      split
      · refine post_hold.bind fun _ c₄ h₄ => post_pure ?_
        exact h₁.held ht hword hkind (hrest.trans h₄.reaches_nil)
      · exact post_pure (h₁.held ht hword hkind hrest)
    · exact Post.span (post_pure (hwhole (h₁.passes.trans hrest).reaches rfl))

omit hg hheld in
/-- A rule may give an expression that starts with a word before it and stops where it does. -/
theorem held_enclosed {p : Parser Expr} (htold : Post p c fun e c' => c.Reaches c' ∧ Told c₀ c' e)
    (hspan : Post p c fun e c' => e.span = ⟨c₀.here, c'.stop⟩) :
    Post p c fun e c' => Held c₀ c' e :=
  (htold.and hspan).mono fun _ _ h => (whole_other ht hword hkind h.1.1 h.2).held

end Brackets

omit hg hheld in
theorem span_afterBracket (start : Nat) :
    Post (afterBracket g start) c fun e c' => e.span = ⟨start, c'.stop⟩ := by
  refine Post.any fun b c₁ => Post.ite (fun _ => Post.span (post_pure rfl)) fun _ => ?_
  refine Post.any fun first c₂ => Post.any fun b c₃ => Post.ite (fun _ => ?_) fun _ => ?_
  · exact Post.any fun gs c₄ => Post.any fun _ c₅ => Post.span (post_pure rfl)
  · exact Post.any fun rest c₄ => Post.any fun _ c₅ => Post.span (post_pure rfl)

omit hg hheld in
/-- What stands in braces has the span from the first brace to the last. -/
theorem span_afterBrace (start : Nat) :
    Post (afterBrace g start) c fun e c' => e.span = ⟨start, c'.stop⟩ := by
  refine Post.any fun b c₁ => Post.ite (fun _ => Post.span (post_pure rfl)) fun _ => ?_
  refine Post.any fun b c₂ => Post.ite (fun _ => ?_) fun _ => ?_
  · exact Post.any fun found c₃ => Post.any fun _ c₄ => Post.span (post_pure rfl)
  refine Post.any fun isBinding c₃ => Post.any fun first c₄ => Post.any fun isColon c₅ => ?_
  refine Post.ite (fun _ => Post.any fun _ c₆ => Post.any fun value c₇ => ?_) fun _ => ?_
  · refine Post.any fun b c₈ => Post.ite (fun _ => ?_) fun _ => ?_
    · exact Post.any fun gs c₉ => Post.any fun _ c₁₀ => Post.span (post_pure rfl)
    · exact Post.any fun rest c₉ => Post.any fun _ c₁₀ => Post.span (post_pure rfl)
  · refine Post.any fun b c₆ => Post.ite (fun _ => ?_) fun _ => ?_
    · exact Post.any fun gs c₇ => Post.any fun _ c₈ => Post.span (post_pure rfl)
    · exact Post.any fun rest c₇ => Post.any fun _ c₈ => Post.span (post_pure rfl)

omit hg hheld in
theorem held_literals : Holds (literals g) := by
  intro c
  refine post_literals.mono fun e c' h => ?_
  obtain ⟨t, c₁, c₂, ht, hforeign, hword, h₁, h₂, hspan, -⟩ := h
  have hkind : ∀ id, t.kind ≠ .name id := by
    intro id hid
    rw [hid] at hforeign
    cases hforeign
  refine ⟨⟨c, c₂, .refl c, whole_other ht hword hkind h₁ hspan, h₂⟩, ?_⟩
  intro ⟨id, hid⟩
  rw [ht.kind?_eq] at hid
  exact absurd (Option.some.inj hid) (hkind id)

theorem held_atom : Holds (atom g) := by
  intro c
  refine Post.here ?_
  refine Post.kind fun k? hk => ?_
  split
  · exact held_literals c
  · refine Post.take hk fun t c₁ h₁ hkind => Post.span (post_pure (Whole.held ?_))
    refine ⟨rfl, [t], h₁, by simp, ?_, .name hkind⟩
    simp [hkind, TokenKind.isLayout]
  · refine Post.take hk fun t c₁ h₁ hkind => ?_
    exact held_afterParen hg hheld h₁ (by rw [hkind]; rfl) (by simp [hkind])
  · refine Post.take hk fun t c₁ h₁ hkind => ?_
    have hword : t.kind.isLayout = false := by
      rw [hkind]
      rfl
    refine held_enclosed h₁ hword (by simp [hkind]) ?_ (span_afterBracket c.here)
    exact told_afterBracket hg (h₁.passes hword)
  · refine Post.take hk fun t c₁ h₁ hkind => ?_
    have hword : t.kind.isLayout = false := by
      rw [hkind]
      rfl
    refine held_enclosed h₁ hword (by simp [hkind]) ?_ (span_afterBrace c.here)
    exact told_afterBrace hg (h₁.passes hword)
  · split
    · rename_i v hv
      refine Post.take hk fun t c₁ h₁ hkind => Post.span (post_pure (Whole.held ?_))
      rw [← hkind] at hv
      refine whole_other h₁ (constant?_word hv) ?_ (.refl c₁) rfl
      intro id hid
      rw [hid] at hv
      cases hv
    · exact post_unexpected
  · exact post_unexpected

omit hheld in
/-- What follows an operand does not change what its words start with. -/
theorem held_trailers {e : Expr} (fuel : Nat) (h : Held c₀ c e) :
    Post (trailers g c₀.here fuel e) c fun e' c' => Held c₀ c' e' := by
  induction fuel generalizing c e with
  | zero => exact post_pure h
  | succ fuel ih =>
    refine Post.acceptToken (fun t c₁ h₁ hkind => ?_) ?_
    · refine (told_arguments hg c₁).bind fun r c₂ h₂ => Post.expect rfl fun c₃ h₃ => ?_
      have hjoins : t.kind.joins = true := by
        rw [hkind]
        rfl
      exact Post.span (ih (h.joined h₁ hjoins (h₂.1.trans h₃.reaches) rfl rfl))
    refine Post.acceptToken (fun t c₁ h₁ hkind => ?_) ?_
    · refine (told_subscripts hg c₁).bind fun index c₂ h₂ => Post.expect rfl fun c₃ h₃ => ?_
      obtain ⟨us, hus, hwords⟩ := h₂.1.reaches.trans h₃.reaches
      have hword : t.kind.isLayout = false := by
        rw [hkind]
        rfl
      refine Post.span (ih (h.grow (h₁.trans hus) ?_ rfl ?_))
      · exact List.forall_mem_cons.mpr ⟨hword, hwords⟩
      · intro ts hts
        exact .subscript hts hkind
    refine Post.acceptToken (fun t c₁ h₁ hkind => ?_) (post_pure h)
    refine post_name.bind fun id c₂ h₂ => ?_
    obtain ⟨x, hx, hname⟩ := h₂
    refine Post.span (ih (h.grow (h₁.trans hx) ?_ rfl ?_))
    · simp [hkind, hname, TokenKind.isLayout]
    · intro ts hts
      exact .member hts hkind hname

theorem held_primary : Holds (primary g) := by
  intro c
  refine Post.here ?_
  exact (held_atom hg hheld c).bind fun e c₁ h₁ => held_trailers hg g.fuel h₁

theorem held_awaited : Holds (awaited g) := by
  intro c
  refine Post.here ?_
  refine Post.acceptToken (fun t c₁ h₁ hkind => ?_) (held_primary hg hheld c)
  refine (held_primary hg hheld c₁).bind fun value c₂ h₂ => Post.span (post_pure (Whole.held ?_))
  exact whole_other h₁ (by rw [hkind]; rfl) (by simp [hkind]) h₂.passes.reaches rfl

theorem held_power : Holds (power g) := by
  intro c
  refine Post.here ?_
  refine (held_awaited hg hheld c).bind fun base c₁ h₁ => ?_
  refine Post.acceptToken (fun t c₂ h₂ hkind => ?_) (post_pure h₁)
  refine (hg.factor c₂).bind fun exponent c₃ h₃ => Post.span (post_pure ?_)
  exact h₁.joined h₂ (by rw [hkind]; rfl) h₃.1.reaches rfl rfl

theorem held_factor : Holds (factor g) := by
  intro c
  refine Post.here ?_
  refine Post.kind fun k? hk => ?_
  split
  · rename_i op hsign
    obtain ⟨k, rfl, hop⟩ := Option.bind_eq_some_iff.mp hsign
    refine Post.take hk fun t c₁ h₁ hkind => ?_
    rw [← hkind] at hop
    refine (hg.factor c₁).bind fun value c₂ h₂ => Post.span (post_pure (Whole.held ?_))
    refine whole_other h₁ (sign?_word hop) ?_ h₂.1.reaches rfl
    intro id hid
    rw [hid] at hop
    cases hop
  · exact held_power hg hheld c

end Rules

/-- Operators of one tier do not change what the words of the first operand start with. -/
theorem held_chain {tier : List (Operator × BinaryOp)} {tighter : Parser Expr}
    (h : Item tighter Told) (htier : ∀ o ∈ tier, (TokenKind.operator o.1).joins = true) {e : Expr}
    (fuel : Nat) (he : Held c₀ c e) :
    Post (chain tier tighter c₀.here fuel e) c fun e' c' => Held c₀ c' e' := by
  induction fuel generalizing c e with
  | zero => exact post_pure he
  | succ fuel ih =>
    refine Post.kind fun k? hk => ?_
    split
    · rename_i op hop
      obtain ⟨k, rfl, hop⟩ := Option.bind_eq_some_iff.mp hop
      have hjoins : k.joins = true := by
        cases k with
        | operator o =>
          obtain ⟨before, after, rfl, -⟩ := List.lookup_eq_some_iff.mp hop
          exact htier (o, op) (by simp)
        | _ => cases hop
      refine Post.take hk fun t c₁ h₁ hkind => (h c₁).bind fun right c₂ h₂ => ?_
      exact Post.span (ih (he.joined h₁ (hkind ▸ hjoins) h₂.1.reaches rfl rfl))
    · exact post_pure he

theorem held_tierOf {tighter : Parser Expr} (htold : Item tighter Told) (h : Holds tighter)
    (fuel : Nat) {tier : List (Operator × BinaryOp)}
    (htier : ∀ o ∈ tier, (TokenKind.operator o.1).joins = true) :
    Holds (tierOf fuel tier tighter) := by
  intro c
  refine Post.here ?_
  exact (h c).bind fun e c₁ h₁ => held_chain htold htier fuel h₁

/-- Items that follow others, if there are any, stand behind a word that joins them to these. -/
inductive Further {α : Type} (c : Cursor) : Cursor → List α → Prop where
  | nothing : Further c c []
  | more {c₁ c' : Cursor} {t : Token} {x : α} {xs : List α} (takes : c.Takes [t] c₁)
    (joins : t.kind.joins = true) (reaches : c₁.Reaches c') : Further c c' (x :: xs)

theorem further_manyWhile {word : Keyword} {item : Parser Expr} (h : Item item Told) (fuel : Nat) :
    Post (manyWhile (acceptWord word) item fuel) c fun xs c' => Further c c' xs := by
  cases fuel with
  | zero => exact post_pure .nothing
  | succ fuel =>
    refine Post.acceptToken (fun t c₁ h₁ hkind => ?_) (post_pure .nothing)
    refine (h c₁).bind fun x c₂ h₂ => ?_
    refine (post_manyWhile extends_told h (reaches_accept rfl) fuel c₂).bind fun xs c₃ h₃ => ?_
    have hjoins : t.kind.joins = true := by
      rw [hkind]
      rfl
    exact post_pure (.more h₁ hjoins (h₂.1.reaches.trans h₃.1))

theorem held_joinedBy {item : Parser Expr} (htold : Item item Told) (h : Holds item) (fuel : Nat)
    (word : Keyword) (op : BoolOp) : Holds (joinedBy fuel word op item) := by
  intro c
  refine Post.here ?_
  refine (h c).bind fun first c₁ h₁ => (further_manyWhile htold fuel).bind fun rest c₂ h₂ => ?_
  cases h₂ with
  | nothing => exact post_pure h₁
  | more takes joins reaches => exact Post.span (post_pure (h₁.joined takes joins reaches rfl rfl))

section Rules

variable (hg : g.Tells) (hheld : g.Holds)

include hg hheld

theorem held_operand : Holds (operand g) := by
  have htiers : ∀ tier ∈ tiers, ∀ o ∈ tier, (TokenKind.operator o.1).joins = true := by decide
  unfold operand
  generalize tiers = tiers at htiers ⊢
  suffices h : Item (tiers.foldr (tierOf g.fuel) (factor g)) Told ∧
      Holds (tiers.foldr (tierOf g.fuel) (factor g)) from h.2
  induction tiers with
  | nil =>
    refine ⟨?_, held_factor hg hheld⟩
    exact fun c => (formed_factor hg c).mono fun e c' h => ⟨h.1, h.2.toTold⟩
  | cons tier tiers ih =>
    obtain ⟨htier, hlater⟩ := List.forall_mem_cons.mp htiers
    obtain ⟨htold, hheld⟩ := ih hlater
    exact ⟨told_tierOf htold g.fuel tier, held_tierOf htold hheld g.fuel htier⟩

omit hheld in
theorem further_comparisons (fuel : Nat) :
    Post (comparisons g fuel) c fun xs c' => Further c c' xs := by
  cases fuel with
  | zero => exact post_pure .nothing
  | succ fuel =>
    refine post_compareOp.bind fun op c₁ h₁ => ?_
    rcases h₁ with ⟨rfl, rfl⟩ | ⟨hop, t, c₂, ht, hjoins, h₂⟩
    · exact post_pure .nothing
    · obtain ⟨op, rfl⟩ := Option.isSome_iff_exists.mp hop
      refine (told_operand hg c₁).bind fun right c₃ h₃ => ?_
      refine (reaches_comparisons hg fuel c₃).bind fun rest c₄ h₄ => ?_
      exact post_pure (.more ht hjoins (h₂.trans (h₃.1.trans h₄).reaches))

theorem held_comparison : Holds (comparison g) := by
  intro c
  refine Post.here ?_
  refine (held_operand hg hheld c).bind fun left c₁ h₁ => ?_
  refine (further_comparisons hg g.fuel).bind fun rest c₂ h₂ => ?_
  cases h₂ with
  | nothing => exact post_pure h₁
  | more takes joins reaches => exact Post.span (post_pure (h₁.joined takes joins reaches rfl rfl))

theorem held_negation : Holds (negation g) := by
  intro c
  refine Post.here ?_
  refine Post.acceptToken (fun t c₁ h₁ hkind => ?_) (held_comparison hg hheld c)
  refine (hg.negation c₁).bind fun value c₂ h₂ => Post.span (post_pure (Whole.held ?_))
  exact whole_other h₁ (by rw [hkind]; rfl) (by simp [hkind]) h₂.1.reaches rfl

theorem held_disjunction : Holds (disjunction g) := by
  have htold := told_joinedBy (told_negation hg) g.fuel .andWord .conjunction
  have hconjunction := held_joinedBy (told_negation hg) (held_negation hg hheld) g.fuel .andWord
    .conjunction
  exact held_joinedBy htold hconjunction g.fuel .orWord .disjunction

theorem held_test : Holds (test g) := by
  intro c
  refine Post.here ?_
  refine Post.acceptToken (fun t c₁ h₁ hkind => ?_) ?_
  · have hword : t.kind.isLayout = false := by
      rw [hkind]
      rfl
    refine held_enclosed h₁ hword (by simp [hkind]) (told_lambda hg (h₁.passes hword)) ?_
    refine Post.any fun params c₂ => Post.any fun _ c₃ => Post.any fun body c₄ => ?_
    exact Post.any fun _ c₅ => Post.span (post_pure rfl)
  refine (held_disjunction hg hheld c).bind fun body c₁ h₁ => ?_
  refine Post.acceptToken (fun t c₂ h₂ hkind => ?_) (post_pure h₁)
  refine (told_disjunction hg c₂).bind fun condition c₃ h₃ => Post.expect rfl fun c₄ h₄ => ?_
  refine (hg.test c₄).bind fun orelse c₅ h₅ => Post.span (post_pure ?_)
  have h := h₃.1.reaches.trans (h₄.trans h₅.1.reaches).reaches
  exact h₁.joined h₂ (by rw [hkind]; rfl) h rfl rfl

end Rules

end Expression

/-- At every level, an operand between two cursors opens as its words do. -/
theorem Grammar.level_holds [CharacterNames] (n : Nat) : (Grammar.level n).Holds := by
  induction n with
  | zero => exact ⟨fun _ => Parser.post_unexpected, fun _ => Parser.post_unexpected⟩
  | succ n ih =>
    have htells := Grammar.level_tells n
    exact ⟨Expression.held_test htells ih, Expression.held_operand htells ih⟩

end Pagewright.Syntax
