import Pagewright.Proofs.Grammar.Told

namespace Pagewright.Syntax

open Syntax.Parser

namespace Expression

variable {g : Grammar} {c c' : Cursor}

theorem post_grouped {found : List Expr × Bool} (h : c.Passes c')
    (hfound : ∀ e ∈ found.1, Told c c' e) :
    Post (grouped c.here found) c' fun e c'' => c'' = c' ∧ Told c c' e := by
  unfold grouped
  split
  · exact post_pure ⟨rfl, hfound _ (by simp)⟩
  · exact Post.span (post_pure ⟨rfl, told_tuple h rfl hfound⟩)

/-- A look at the next two tokens for a name and a symbol. -/
theorem post_nameBefore {o : Operator} {p : Parser Bool} (hp : p = (do
      match ← kind? with
      | some (.name _) => return (← second?) = some (.operator o)
      | _ => return false)) :
    Post p c fun b c' => c' = c ∧ (b = true → c.second? = some (.operator o)) := by
  subst hp
  refine Post.kind fun k? hk => ?_
  split
  · exact Post.second (post_pure ⟨rfl, of_decide_eq_true⟩)
  · exact post_pure ⟨rfl, fun h => by cases h⟩

theorem post_bindsName : Post bindsName c fun b c' =>
    c' = c ∧ (b = true → c.second? = some (.operator .colonEqual)) :=
  post_nameBefore rfl

theorem post_isKeywordNext : Post isKeywordNext c fun b c' =>
    c' = c ∧ (b = true → c.second? = some (.operator .equal)) :=
  post_nameBefore rfl

theorem looks_bindsName : Looks bindsName :=
  fun _ => post_bindsName.mono fun _ _ h => h.1

/-- A name and the symbol after it are taken. -/
theorem post_nameAndSymbol {α : Type} {o : Operator} {f : Text → Parser α}
    {Q : α → Cursor → Prop} (hsecond : c.second? = some (.operator o))
    (h : ∀ id c', c.Passes c' → Post (f id) c' Q) :
    Post (identifier >>= fun id => take >>= fun _ => f id) c Q := by
  refine post_identifier.bind fun id c₁ h₁ => ?_
  obtain ⟨t, ht, hword⟩ := h₁
  refine Post.take (ht.kind?_of_second.trans hsecond) fun t' c₂ h₂ hkind => ?_
  exact h id c₂ ((ht.passes hword).trans (h₂.passes (by rw [hkind]; rfl)).reaches)

def ToldArgument (c c' : Cursor) : Argument → Prop
  | .positional value => Told c c' value
  | .keyword _ _ value => Told c c' value

theorem extends_argument : Extends ToldArgument := by
  constructor
  · intro c c₁ c₂ a h ha
    cases a with
    | positional value => exact extends_told.before h ha
    | keyword start name value => exact extends_told.before h ha
  · intro c c₁ c₂ a ha h
    cases a with
    | positional value => exact extends_told.after ha h
    | keyword start name value => exact extends_told.after ha h

/-- Expressions with commas are one expression. -/
theorem told_items {starts : TokenKind → Bool} {item : Parser Expr} (hitem : Item item Told)
    (fuel : Nat) (c : Cursor) :
    Post (items fuel starts item >>= grouped c.here) c fun e c' => c.Passes c' ∧ Told c c' e := by
  refine (post_items extends_told hitem fuel starts c).bind fun found c₁ h₁ => ?_
  refine (post_grouped h₁.1 h₁.2).mono fun e c₂ h₂ => ?_
  obtain ⟨rfl, h₂⟩ := h₂
  exact ⟨h₁.1, h₂⟩

def ToldEntry (c c' : Cursor) (e : Option Expr × Expr) : Prop :=
  Told c c' e.2

theorem extends_entry : Extends ToldEntry :=
  ⟨extends_told.before, extends_told.after⟩

section Rules

variable (hg : g.Tells)

include hg

theorem told_named : Item (named g) Told := by
  intro c
  refine Post.here ?_
  refine post_bindsName.bind fun b c' h => ?_
  obtain ⟨rfl, hsecond⟩ := h
  cases b with
  | true =>
    refine post_nameAndSymbol (hsecond rfl) fun target c₁ h₁ => ?_
    refine (hg.test c₁).bind fun value c₂ h₂ => ?_
    obtain ⟨d, d', hd, hdd, hd', hspan⟩ := h₂.2.span
    have h := (h₁.trans hd).trans hdd.reaches
    refine post_pure ⟨h.trans hd', ?_, by simp [Expr.parts]⟩
    exact ⟨_, d', .refl _, h, hd', by rw [hspan]; rfl⟩
  | false => exact hg.test _

theorem told_starred : Item (starred g) Told := by
  intro c
  refine Post.here ?_
  refine Post.expect rfl fun c₁ h₁ => ?_
  refine (hg.operand c₁).bind fun value c₂ h₂ => ?_
  have h := h₁.trans h₂.1.reaches
  exact Post.span (post_pure ⟨h, told_plain h rfl rfl⟩)

theorem told_testOrStar : Item (testOrStar g) Told := by
  intro c
  refine looks_isNext.bind fun b => ?_
  cases b with
  | true => exact told_starred hg c
  | false => exact hg.test c

theorem told_namedOrStar : Item (namedOrStar g) Told := by
  intro c
  refine looks_isNext.bind fun b => ?_
  cases b with
  | true => exact told_starred hg c
  | false => exact told_named hg c

theorem told_operandOrStar : Item (operandOrStar g) Told := by
  intro c
  refine looks_isNext.bind fun b => ?_
  cases b with
  | true => exact told_starred hg c
  | false => exact hg.operand c

theorem told_testList : Item (testList g) Told :=
  fun c => Post.here (told_items (told_testOrStar hg) g.fuel c)

theorem told_targetList : Item (targetList g) Told :=
  fun c => Post.here (told_items (told_operandOrStar hg) g.fuel c)

theorem told_yielded : Item (yielded g) Told := by
  intro c
  refine Post.here ?_
  refine Post.expect rfl fun c₁ h₁ => ?_
  refine Post.accept rfl (fun c₂ h₂ => ?_) ?_
  · refine (hg.test c₂).bind fun value c₃ h₃ => ?_
    have h := h₁.trans (h₂.trans h₃.1.reaches).reaches
    exact Post.span (post_pure ⟨h, told_plain h rfl rfl⟩)
  · refine looks_nextIs.bind fun b => ?_
    cases b with
    | true =>
      refine (told_testList hg c₁).bind fun value c₂ h₂ => ?_
      have h := h₁.trans h₂.1.reaches
      exact Post.span (post_pure ⟨h, told_plain h rfl rfl⟩)
    | false => exact Post.span (post_pure ⟨h₁, told_plain h₁ rfl rfl⟩)

theorem told_assigned : Item (assigned g) Told := by
  intro c
  refine looks_isNext.bind fun b => ?_
  cases b with
  | true => exact told_yielded hg c
  | false => exact told_testList hg c

theorem plain_generator : Plain (generator g) := by
  intro c
  refine (reaches_accept rfl c).bind fun isAsync c₁ h₁ => ?_
  refine Post.expect rfl fun c₂ h₂ => ?_
  refine (told_targetList hg c₂).bind fun target c₃ h₃ => ?_
  refine Post.expect rfl fun c₄ h₄ => ?_
  refine (hg.disjunction c₄).bind fun source c₅ h₅ => ?_
  refine (post_manyWhile extends_told hg.disjunction (reaches_accept rfl) g.fuel c₅).bind
    fun conditions c₆ h₆ => ?_
  have h := h₂.trans (h₃.1.trans (h₄.trans (h₅.1.trans h₆.1).reaches).reaches).reaches
  exact post_pure ⟨h₁.passes h, trivial⟩

theorem plain_generators : Plain (generators g) := by
  intro c
  refine (plain_generator hg c).bind fun first c₁ h₁ => ?_
  refine (post_manyWhile extends_true (plain_generator hg) (looks_nextIs.reaches) g.fuel c₁).bind
    fun later c₂ h₂ => ?_
  exact post_pure ⟨h₁.1.trans h₂.1, trivial⟩

/-- The value of an argument lies within the words of the argument. -/
theorem told_argument : Item (argument g) ToldArgument := by
  intro c
  refine Post.here ?_
  refine Post.accept rfl (fun c₁ h₁ => ?_) ?_
  · refine (hg.test c₁).bind fun value c₂ h₂ => ?_
    have h := h₁.trans h₂.1.reaches
    exact Post.span (post_pure ⟨h, told_plain h rfl rfl⟩)
  refine Post.accept rfl (fun c₁ h₁ => ?_) ?_
  · refine (hg.test c₁).bind fun value c₂ h₂ => ?_
    exact post_pure ⟨h₁.trans h₂.1.reaches, extends_told.before h₁.reaches h₂.2⟩
  refine post_isKeywordNext.bind fun b c' h => ?_
  obtain ⟨rfl, hsecond⟩ := h
  cases b with
  | true =>
    refine post_nameAndSymbol (hsecond rfl) fun name c₁ h₁ => ?_
    refine (hg.test c₁).bind fun value c₂ h₂ => ?_
    exact post_pure ⟨h₁.trans h₂.1.reaches, extends_told.before h₁.reaches h₂.2⟩
  | false =>
    refine (told_named hg _).bind fun value c₁ h₁ => ?_
    refine looks_nextIs.bind fun b => ?_
    cases b with
    | true =>
      refine (plain_generators hg c₁).bind fun gs c₂ h₂ => ?_
      have h := h₁.1.trans h₂.1.reaches
      exact Post.span (post_pure ⟨h, told_plain h rfl rfl⟩)
    | false => exact post_pure h₁

theorem told_argumentItems (fuel : Nat) (c : Cursor) :
    Post (argumentItems g fuel) c fun xs c' =>
      c.Reaches c' ∧ ∀ a ∈ xs, ToldArgument c c' a := by
  induction fuel generalizing c with
  | zero => exact post_pure ⟨.refl c, by simp⟩
  | succ fuel ih =>
    refine looks_nextIs.bind fun b => ?_
    cases b with
    | true =>
      refine (told_argument hg c).bind fun a c₁ h₁ => ?_
      refine Post.accept rfl (fun c₂ h₂ => ?_) ?_
      · refine (ih c₂).bind fun xs c₃ h₃ => ?_
        have h := h₂.reaches.trans h₃.1
        refine post_pure ⟨h₁.1.reaches.trans h, fun x hx => ?_⟩
        rcases List.mem_cons.mp hx with rfl | hx
        · exact extends_argument.after h₁.2 h
        · exact extends_argument.before (h₁.1.trans h₂.reaches).reaches (h₃.2 x hx)
      · exact post_pure ⟨h₁.1.reaches, by simpa using h₁.2⟩
    | false => exact post_pure ⟨.refl c, by simp⟩

/-- The values of keyword arguments lie within the words between the brackets. -/
theorem told_arguments (c : Cursor) :
    Post (arguments g) c fun r c' => c.Reaches c' ∧ ∀ k ∈ r.2, Told c c' k.value := by
  refine (told_argumentItems hg g.fuel c).bind fun found c₁ h₁ => ?_
  have hkeywords : ∀ k ∈ found.filterMap (fun
      | .positional _ => none
      | .keyword _ name value => some (⟨name, value⟩ : KeywordArg Expr)), Told c c₁ k.value := by
    intro k hk
    obtain ⟨a, ha, hsome⟩ := List.mem_filterMap.mp hk
    cases a with
    | positional value => cases hsome
    | keyword start name value =>
      obtain rfl := Option.some.inj hsome
      exact h₁.2 _ ha
  simp only
  split
  · refine post_hold.bind fun _ c₂ h₂ => ?_
    have h := h₂.reaches_nil
    exact post_pure ⟨h₁.1.trans h, fun k hk => extends_told.after (hkeywords k hk) h⟩
  · exact post_pure ⟨h₁.1, hkeywords⟩

/-- The rest of a slice that started at a cursor before. -/
theorem told_sliceRest {c₀ : Cursor} (lower : Option Expr) (h₀ : c₀.Reaches c) :
    Post (sliceRest g c₀.here lower) c fun e c' => c₀.Passes c' ∧ Told c₀ c' e := by
  refine Post.expect rfl fun c₁ h₁ => ?_
  refine Post.optional hg.test.plain fun upper c₂ h₂ => ?_
  refine Post.accept rfl (fun c₃ h₃ => ?_) ?_
  · refine Post.optional hg.test.plain fun step c₄ h₄ => ?_
    have h := h₀.passes (h₁.trans (h₂.trans (h₃.trans h₄).reaches))
    exact Post.span (post_pure ⟨h, told_plain h rfl rfl⟩)
  · have h := h₀.passes (h₁.trans h₂)
    refine Post.pure_bind ?_
    exact Post.span (post_pure ⟨h, told_plain h rfl rfl⟩)

theorem told_subscriptItem : Item (subscriptItem g) Told := by
  intro c
  refine Post.here ?_
  refine looks_isNext.bind fun b => ?_
  cases b with
  | true => exact told_sliceRest hg none (.refl c)
  | false =>
    refine looks_bindsName.bind fun isBinding => ?_
    refine looks_isNext.bind fun isStarred => ?_
    refine (told_namedOrStar hg c).bind fun value c₁ h₁ => ?_
    refine looks_isNext.bind fun b => ?_
    split
    · exact told_sliceRest hg (some value) h₁.1.reaches
    · exact post_pure h₁

theorem told_subscripts : Item (subscripts g) Told :=
  fun c => Post.here (told_items (told_subscriptItem hg) g.fuel c)

end Rules

def ToldPart (c c' : Cursor) (p : LiteralValue.Part) : Prop :=
  c.Covers c' p.span

theorem literalPart_takes : Post literalPart c fun p c' =>
    ∃ t, c.Takes [t] c' ∧ t.kind.isForeign = true ∧ t.kind.isLayout = false ∧
      p.span = ⟨c.here, c'.stop⟩ := by
  refine Post.next ?_
  split
  · rename_i l start stop ht
    refine (post_take ht).bind fun _ c₁ h₁ => post_pure ⟨_, h₁, rfl, rfl, ?_⟩
    rw [Cursor.here, ht, h₁.stop]
    rfl
  · exact post_unexpected

theorem told_literalPart : Item literalPart ToldPart := by
  intro c
  refine literalPart_takes.mono fun p c' h => ?_
  obtain ⟨t, ht, -, hword, hspan⟩ := h
  have hpasses := ht.passes hword
  refine ⟨hpasses, ?_⟩
  unfold ToldPart
  rw [hspan]
  exact covers_whole hpasses

theorem extends_part : Extends ToldPart :=
  ⟨extends_covers.before, extends_covers.after⟩

/-- The value of neighbouring literals covers all of them. -/
theorem ofParts_span {names : NameTable} {field : LiteralValue.FieldReader}
    {first : LiteralValue.Part} {rest : List LiteralValue.Part} {e : Expr}
    (h : LiteralValue.ofParts names field first rest = .ok e) :
    e.span = ⟨first.span.start, ((first :: rest).getLastD first).span.stop⟩ ∧ e.parts = [] := by
  unfold LiteralValue.ofParts at h
  simp only [bind, Except.bind, pure, Except.pure, throw, throwThe, MonadExceptOf.throw] at h
  split at h
  · split at h
    · cases h
    · obtain rfl := Except.ok.inj h
      exact ⟨rfl, by simp [Expr.parts]⟩
  · split at h
    · cases h
    · split at h
      · split at h
        · cases h
        · obtain rfl := Except.ok.inj h
          exact ⟨rfl, by simp [Expr.parts]⟩
      · split at h
        · cases h
        · obtain rfl := Except.ok.inj h
          exact ⟨rfl, by simp [Expr.parts]⟩

/-- Neighbouring literals give a value from the start of the first one to the stop of one. -/
theorem post_literals : Post (literals g) c fun e c' => ∃ t c₁ c₂, c.Takes [t] c₁ ∧
    t.kind.isForeign = true ∧ t.kind.isLayout = false ∧ c₁.Reaches c₂ ∧ c₂.Reaches c' ∧
    e.span = ⟨c.here, c₂.stop⟩ ∧ e.parts = [] := by
  refine literalPart_takes.bind fun first c₁ h₁ => ?_
  obtain ⟨t, ht, hforeign, hword, hfirst⟩ := h₁
  refine (post_manyWhile extends_part told_literalPart looks_nextIs.reaches g.fuel c₁).bind
    fun rest c₂ h₂ => ?_
  split
  · rename_i e he
    obtain ⟨hspan, hparts⟩ := ofParts_span he
    have hlast := List.getLastD_mem_cons (l := rest) (a := first)
    rw [List.getLastD_cons, hfirst] at hspan
    rcases List.mem_cons.mp hlast with hlast | hlast
    · refine post_pure ⟨t, c₁, c₁, ht, hforeign, hword, .refl c₁, h₂.1, ?_, hparts⟩
      rw [hspan, hlast, hfirst]
    · obtain ⟨d, d', hd, hdd, hd', hlast⟩ := h₂.2.2 _ hlast
      refine post_pure ⟨t, c₁, d', ht, hforeign, hword, (hd.passes hdd).reaches, hd', ?_, hparts⟩
      rw [hspan, hlast]
  · refine post_hold.bind fun _ c₃ h₃ => post_pure ⟨t, c₁, c₁, ht, hforeign, hword, .refl c₁,
      h₂.1.trans h₃.reaches_nil, ?_, by simp [Expr.parts]⟩
    rw [Expr.span, hfirst]

theorem formed_literals : Item (literals g) Formed := by
  intro c
  refine post_literals.mono fun e c' h => ?_
  obtain ⟨t, c₁, c₂, ht, hforeign, hword, h₁, h₂, hspan, hparts⟩ := h
  have hpasses := (ht.passes hword).trans h₁
  have htold : Told c c' e := by
    refine ⟨?_, by simp [hparts]⟩
    rw [hspan]
    exact ⟨c, c₂, .refl c, hpasses, h₂, rfl⟩
  exact ⟨htold.passes, htold.formed_first ht (h₁.trans h₂) hforeign⟩

section Rules

variable (hg : g.Tells)

include hg

/-- What stands in round brackets, behind the opening one. -/
theorem told_afterParen {c₀ : Cursor} (h₀ : c₀.Passes c) :
    Post (afterParen g c₀.here) c fun e c' => c.Reaches c' ∧ Told c₀ c' e := by
  refine Post.here ?_
  refine Post.accept rfl (fun c₁ h₁ => ?_) ?_
  · exact Post.span (post_pure ⟨h₁.reaches, told_tuple (h₀.trans h₁.reaches) rfl (by simp)⟩)
  refine looks_isNext.bind fun b => ?_
  cases b with
  | true =>
    refine (told_yielded hg c).bind fun value c₁ h₁ => ?_
    refine Post.expect rfl fun c₂ h₂ => ?_
    refine post_pure ⟨(h₁.1.trans h₂.reaches).reaches, ?_⟩
    exact extends_told.before h₀.reaches (extends_told.after h₁.2 h₂.reaches)
  | false =>
  refine Post.accept rfl (fun c₁ h₁ => ?_) ?_
  · refine (hg.operand c₁).bind fun value c₂ h₂ => ?_
    refine Post.expect rfl fun c₃ h₃ => ?_
    refine post_hold.bind fun _ c₄ h₄ => ?_
    have h := h₃.reaches.trans h₄.reaches_nil
    refine post_pure ⟨(h₁.trans (h₂.1.trans h).reaches).reaches, ?_⟩
    exact extends_told.before (h₀.trans h₁.reaches).reaches (extends_told.after h₂.2 h)
  refine (told_namedOrStar hg c).bind fun first c₁ h₁ => ?_
  refine looks_nextIs.bind fun b => ?_
  split
  · refine (plain_generators hg c₁).bind fun gs c₂ h₂ => ?_
    refine Post.expect rfl fun c₃ h₃ => ?_
    have h := h₁.1.trans (h₂.1.trans h₃.reaches).reaches
    exact Post.span (post_pure ⟨h.reaches, told_plain (h₀.trans h.reaches) rfl rfl⟩)
  · refine (post_moreItems extends_told (told_namedOrStar hg) startsItem g.fuel c₁).bind
      fun r c₂ h₂ => ?_
    obtain ⟨rest, isOpen⟩ := r
    refine Post.expect rfl fun c₃ h₃ => ?_
    have h := h₂.1.passes h₃
    have hfirst := extends_told.before h₀.reaches (extends_told.after h₁.2 h.reaches)
    split
    · simp only
      split
      · refine post_hold.bind fun _ c₄ h₄ => ?_
        have h' := h.trans h₄.reaches_nil
        exact post_pure ⟨(h₁.1.trans h'.reaches).reaches,
          extends_told.after hfirst h₄.reaches_nil⟩
      · exact post_pure ⟨(h₁.1.trans h.reaches).reaches, hfirst⟩
    · have hall := (h₁.1.trans h.reaches).reaches
      refine Post.span (post_pure ⟨hall, told_tuple (h₀.trans hall) rfl fun e he => ?_⟩)
      rcases List.mem_cons.mp he with rfl | he
      · exact hfirst
      · exact extends_told.before (h₀.reaches.trans h₁.1.reaches)
          (extends_told.after (h₂.2 e he) h₃.reaches)

/-- What stands in square brackets, behind the opening one. -/
theorem told_afterBracket {c₀ : Cursor} (h₀ : c₀.Passes c) :
    Post (afterBracket g c₀.here) c fun e c' => c.Reaches c' ∧ Told c₀ c' e := by
  refine Post.accept rfl (fun c₁ h₁ => ?_) ?_
  · exact Post.span (post_pure ⟨h₁.reaches, told_list (h₀.trans h₁.reaches) rfl (by simp)⟩)
  refine (told_namedOrStar hg c).bind fun first c₁ h₁ => ?_
  refine looks_nextIs.bind fun b => ?_
  cases b with
  | true =>
    refine (plain_generators hg c₁).bind fun gs c₂ h₂ => ?_
    refine Post.expect rfl fun c₃ h₃ => ?_
    have h := h₁.1.trans (h₂.1.trans h₃.reaches).reaches
    exact Post.span (post_pure ⟨h.reaches, told_plain (h₀.trans h.reaches) rfl rfl⟩)
  | false =>
    refine (post_moreItems extends_told (told_namedOrStar hg) startsItem g.fuel c₁).bind
      fun r c₂ h₂ => ?_
    obtain ⟨rest, isOpen⟩ := r
    refine Post.expect rfl fun c₃ h₃ => ?_
    have h := h₂.1.passes h₃
    have hall := (h₁.1.trans h.reaches).reaches
    refine Post.span (post_pure ⟨hall, told_list (h₀.trans hall) rfl fun e he => ?_⟩)
    rcases List.mem_cons.mp he with rfl | he
    · exact extends_told.before h₀.reaches (extends_told.after h₁.2 h.reaches)
    · exact extends_told.before (h₀.reaches.trans h₁.1.reaches)
        (extends_told.after (h₂.2 e he) h₃.reaches)

theorem told_entry : Item (entry g) ToldEntry := by
  intro c
  refine Post.accept rfl (fun c₁ h₁ => ?_) ?_
  · refine (hg.operand c₁).bind fun value c₂ h₂ => ?_
    exact post_pure ⟨h₁.trans h₂.1.reaches, extends_told.before h₁.reaches h₂.2⟩
  · refine (hg.test c).bind fun key c₁ h₁ => ?_
    refine Post.expect rfl fun c₂ h₂ => ?_
    refine (hg.test c₂).bind fun value c₃ h₃ => ?_
    have h := h₁.1.trans h₂.reaches
    exact post_pure ⟨h.trans h₃.1.reaches, extends_told.before h.reaches h₃.2⟩

/-- What stands in curly brackets, behind the opening one. -/
theorem told_afterBrace {c₀ : Cursor} (h₀ : c₀.Passes c) :
    Post (afterBrace g c₀.here) c fun e c' => c.Reaches c' ∧ Told c₀ c' e := by
  refine Post.accept rfl (fun c₁ h₁ => ?_) ?_
  · exact Post.span (post_pure ⟨h₁.reaches, told_dict (h₀.trans h₁.reaches) rfl (by simp)⟩)
  refine looks_isNext.bind fun b => ?_
  cases b with
  | true =>
    refine (post_items extends_entry (told_entry hg) g.fuel startsEntry c).bind fun r c₁ h₁ => ?_
    refine Post.expect rfl fun c₂ h₂ => ?_
    have h := h₁.1.trans h₂.reaches
    refine Post.span (post_pure ⟨h.reaches, told_dict (h₀.trans h.reaches) rfl fun e he => ?_⟩)
    exact extends_told.before h₀.reaches (extends_told.after (h₁.2 e he) h₂.reaches)
  | false =>
  refine looks_bindsName.bind fun isBinding => ?_
  refine (told_namedOrStar hg c).bind fun first c₁ h₁ => ?_
  refine looks_isNext.bind fun isColon => ?_
  split
  · refine Post.expect rfl fun c₂ h₂ => ?_
    refine (hg.test c₂).bind fun value c₃ h₃ => ?_
    have hvalue := (h₁.1.trans (h₂.trans h₃.1.reaches).reaches)
    refine looks_nextIs.bind fun b => ?_
    cases b with
    | true =>
      refine (plain_generators hg c₃).bind fun gs c₄ h₄ => ?_
      refine Post.expect rfl fun c₅ h₅ => ?_
      have h := hvalue.trans (h₄.1.trans h₅.reaches).reaches
      exact Post.span (post_pure ⟨h.reaches, told_plain (h₀.trans h.reaches) rfl rfl⟩)
    | false =>
      refine (post_moreItems extends_entry (told_entry hg) startsEntry g.fuel c₃).bind
        fun r c₄ h₄ => ?_
      obtain ⟨rest, isOpen⟩ := r
      refine Post.expect rfl fun c₅ h₅ => ?_
      have h := h₄.1.passes h₅
      have hall := (hvalue.trans h.reaches).reaches
      refine Post.span (post_pure ⟨hall, told_dict (h₀.trans hall) rfl fun e he => ?_⟩)
      rcases List.mem_cons.mp he with rfl | he
      · exact extends_told.before (h₀.reaches.trans (h₁.1.trans h₂.reaches).reaches)
          (extends_told.after h₃.2 h.reaches)
      · exact extends_told.before (h₀.reaches.trans hvalue.reaches)
          (extends_told.after (h₄.2 e he) h₅.reaches)
  · refine looks_nextIs.bind fun b => ?_
    split
    · refine (plain_generators hg c₁).bind fun gs c₂ h₂ => ?_
      refine Post.expect rfl fun c₃ h₃ => ?_
      have h := h₁.1.trans (h₂.1.trans h₃.reaches).reaches
      exact Post.span (post_pure ⟨h.reaches, told_plain (h₀.trans h.reaches) rfl rfl⟩)
    · refine (post_moreItems extends_told (told_namedOrStar hg) startsItem g.fuel c₁).bind
        fun r c₂ h₂ => ?_
      obtain ⟨rest, isOpen⟩ := r
      refine Post.expect rfl fun c₃ h₃ => ?_
      have h := h₁.1.trans (h₂.1.passes h₃).reaches
      exact Post.span (post_pure ⟨h.reaches, told_plain (h₀.trans h.reaches) rfl rfl⟩)

end Rules

end Expression
end Pagewright.Syntax
