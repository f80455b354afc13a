import Pagewright.Proofs.Reread.Enclosed
import Pagewright.Proofs.Reread.Lambdas
import Pagewright.Proofs.Reread.Names

namespace Pagewright.Syntax

open Syntax.Parser

/-- An expression that stands alone behind a word on its line, or one that needs brackets. -/
def Expr.IsApart [CharacterNames] (t : Text) (e : Expr) : Prop :=
  e.needsBrackets = true ∨ ∃ n before x c c', (Stream.ofText t 0 true).tokens = before ++ x :: c.tokens ∧
    x.kind.isLayout = false ∧ Alone n c c' e

def Cursor.In (t : Text) (c : Cursor) : Prop :=
  ∃ before, (Stream.ofText t 0 true).tokens = before ++ c.tokens

section Cursors

variable {t : Text} {c c' : Cursor}

theorem Cursor.lasts_in (t : Text) : Cursor.Lasts (Cursor.In t) := by
  intro c c' ⟨before, h⟩ ⟨ts, hts⟩
  exact ⟨before ++ ts, by rw [h, hts.tokens, List.append_assoc]⟩

theorem Cursor.In.load (h : c.In t) : Syntax.load (c.tokens.map Token.kind) < 2 * t.length + 8 := by
  obtain ⟨before, h⟩ := h
  have hload := Stream.ofText_load t 0 true
  rw [h, List.map_append, load_append] at hload
  omega

/-- Behind a word, what the rule for tests gives stands alone, or needs brackets. -/
theorem Cursor.In.apart [CharacterNames] {x : Token} {n : Nat} (h : c.In t) (hx : c.Takes [x] c')
    (hword : x.kind.isLayout = false) (hn : 2 * t.length + 8 = n) :
    Post (Grammar.level n).test c' fun e d => d.held = none → e.IsApart t := by
  intro e d hgiven hheld
  have hload : Syntax.load (c'.tokens.map Token.kind) < n :=
    hn ▸ (Cursor.lasts_in t c c' h hx.moves).load
  have hstands := Expression.tests_level n c' hload e d hgiven hheld
  obtain ⟨before, h⟩ := h
  rw [hx.tokens] at h
  rcases hstands with hspan | hbracket | ⟨m, c₁, c₂, ⟨ts, hts, hne, hwords⟩, halone⟩
  · exact .inr ⟨n, before, x, c', d, h, hword, hgiven, hspan, hheld, hload⟩
  · exact .inl hbracket
  · obtain ⟨ts', y, rfl⟩ := (List.eq_nil_or_concat ts).resolve_left hne
    refine .inr ⟨m, before ++ x :: ts', y, c₁, c₂, ?_, hwords y (by simp), halone⟩
    rw [h, hts.tokens]
    simp

end Cursors

namespace Expression

/-- The name of a parameter is no keyword. -/
theorem paramName_free {t : Text} {c : Cursor} (hint : Option (Parser Expr)) (h : c.In t) :
    Post (paramName hint) c fun p _ => Identifier.IsFree p.name := by
  refine Post.here (post_name.bind fun name c₁ h₁ => ?_)
  obtain ⟨x, hx, hname⟩ := h₁
  obtain ⟨before, h⟩ := h
  have hmem : x ∈ (Stream.ofText t 0 true).tokens := by
    rw [h, hx.tokens]
    simp
  have hfree := Stream.ofText_free hmem hname
  cases hint with
  | none => exact Post.span (post_pure hfree)
  | some rule =>
    refine Post.any fun b c₂ => Post.ite (fun _ => ?_) fun _ => Post.span (post_pure hfree)
    exact Post.any fun e c₃ => Post.span (post_pure hfree)

/-- A parameter that can be read again: its name is no word of the language, and its default stands
alone. -/
structure IsRereadable [CharacterNames] (t : Text) (p : Parameter Expr) : Prop where
  name : Identifier.IsFree p.name
  fallback : ∀ e ∈ p.fallback, e.IsApart t

/-- A parameter with a default keeps the tokens that the default is read from. -/
theorem boundParam_rereadable [CharacterNames] {t : Text} {c : Cursor} (h : c.In t) :
    Post (boundParam (Grammar.level (2 * t.length + 8)) true) c
      fun p c' => c'.held = none → IsRereadable t p := by
  have hname : Plain (paramName (some (Grammar.level (2 * t.length + 8)).test)) := by
    refine plain_paramName _ fun rule hrule => ?_
    obtain rfl := Option.mem_some.mp hrule
    exact (Grammar.level_tells _).test.plain
  refine ((hname c).and (paramName_free _ h)).bind fun p c₁ h₁ => ?_
  have hc₁ := Cursor.lasts_in t c c₁ h h₁.1.1.moves
  refine Post.acceptToken (fun x c₂ h₂ hkind => ?_) (post_pure fun _ => ⟨h₁.2, by simp⟩)
  have hword : x.kind.isLayout = false := by
    rw [hkind]
    rfl
  have htest := hc₁.apart h₂ hword rfl
  refine Post.bind (P := fun fallback c₃ => c₃.held = none → ∀ e ∈ fallback, e.IsApart t)
    (Post.map (htest.mono fun e c₃ he hheld => ?_)) fun fallback c₃ h₃ =>
      post_pure fun hheld => ⟨h₁.2, h₃ hheld⟩
  simpa using he hheld

end Expression

namespace Statement

open Expression

/-- The defaults in the head of a function can be read again. -/
theorem functionDef_rereadable [CharacterNames] {t : Text} {c : Cursor} {block : Block}
    {start : Nat} {isAsync : Bool} {decorators : List Expr} (h : c.In t) :
    Post (functionDef (Grammar.level (2 * t.length + 8)) block start isAsync decorators) c
      fun s _ => s.HasHead fun head => ∀ p ∈ head.params.single, IsRereadable t p := by
  have hg := Grammar.level_tells (2 * t.length + 8)
  refine Post.identifier fun name c₁ h₁ => ?_
  have hc₁ := Cursor.lasts_in t c c₁ h h₁.moves
  refine (reaches_typeParams hg c₁).bind fun typeParams c₂ h₂ => Post.expect rfl fun c₃ h₃ => ?_
  have hc₃ := Cursor.lasts_in t c₁ c₃ hc₁ (h₂.trans h₃.reaches).moves
  refine (paramList_each hg (Cursor.lasts_in t) (fun _ => boundParam_rereadable) hc₃).bind
    fun params c₄ h₄ => ?_
  refine post_expect_settled.bind fun _ c₅ hheld => Post.any fun _ c₆ => Post.any fun b c₇ => ?_
  refine Post.ite (fun _ => ?_) fun _ => ?_
  · exact Post.any fun returns c₈ => Post.any fun body c₉ => post_pure (h₄ hheld)
  · exact Post.pure_bind (Post.any fun body c₈ => post_pure (h₄ hheld))

end Statement

/-- The parameters of the functions at the top level of a parsed text can be read again. -/
theorem parse_rereadable [CharacterNames] {t : Text} {body : List Stmt} (h : parse t = .ok body)
    {span : Span}
    {head : FunctionHead} {inner : List Stmt} (hs : .function span head inner ∈ body) :
    ∀ p ∈ head.params.single, Expression.IsRereadable t p :=
  parse_heads (Cursor.lasts_in t) ⟨[], rfl⟩ (fun _ _ _ _ hc => Statement.functionDef_rereadable hc) h hs

/-- The forms that `or` does not take as an operand, or joins with others. -/
def Expr.isLoose : Expr → Bool
  | .lambda .. | .conditional .. | .boolean _ .disjunction _ => true
  | _ => false

namespace Expression

variable {g : Grammar} {c : Cursor}

theorem post_given {α : Type} (p : Parser α) (c : Cursor) : Post p c fun x c' => p c = .ok (x, c') :=
  fun _ _ h => h

/-- An expression that `or` does not join is an operand of it. -/
theorem conjunction_of_test : Post (test g) c fun e c' =>
    e.isLoose = false → conjunction g c = .ok (e, c') := by
  have hdisjunction : Post (disjunction g) c fun e c' =>
      e.isLoose = false → conjunction g c = .ok (e, c') := by
    refine Post.here ((post_given _ c).bind fun first c₁ h₁ => ?_)
    refine (post_manyWhile_nil _ c₁).bind fun rest c₂ h₂ => ?_
    cases rest with
    | nil =>
      obtain rfl := h₂ rfl
      exact post_pure fun _ => h₁
    | cons x xs => exact Post.span (post_pure fun h => absurd h (by simp [Expr.isLoose]))
  refine Post.here (Post.acceptToken (fun t c₁ h₁ hkind => ?_) ?_)
  · refine Post.any fun params c₂ => Post.any fun _ c₃ => Post.any fun body c₄ => ?_
    exact Post.any fun _ c₅ => Post.span (post_pure fun h => absurd h (by simp [Expr.isLoose]))
  refine hdisjunction.bind fun body c₁ h₁ => Post.acceptToken (fun t c₂ h₂ hkind => ?_) (post_pure h₁)
  refine Post.any fun condition c₃ => Post.any fun _ c₄ => Post.any fun orelse c₅ => ?_
  exact Post.span (post_pure fun h => absurd h (by simp [Expr.isLoose]))

end Expression

namespace Expression

section Starts

variable {g : Grammar} {c : Cursor}

/-- A rule that gives something only where an expression starts. -/
def StartsWell (p : Parser Expr) : Prop :=
  ∀ c, Post p c fun _ _ => ∃ k, c.kind? = some k ∧ starts k = true

/-- What a rule starts with is known by its first rule. -/
theorem StartsWell.bind {p : Parser Expr} {f : Expr → Parser Expr} (h : StartsWell p) :
    StartsWell (p >>= f) :=
  fun c => (h c).bind fun _ _ hstarts _ _ _ => hstarts

theorem startsWell_word {k : TokenKind} {f : Bool → Parser Expr} (hk : starts k = true)
    (h : StartsWell (f false)) : StartsWell (accept k >>= f) := by
  refine fun c => Post.acceptToken (fun t c₁ h₁ hkind _ _ _ => ?_) (h c)
  exact ⟨t.kind, h₁.kind?_eq, hkind ▸ hk⟩

theorem starts_of_constant {k : TokenKind} {v : Constant} (h : constant? k = some v) :
    starts k = true := by
  cases k with
  | keyword w => cases w <;> first | rfl | cases h
  | operator o => cases o <;> first | rfl | cases h
  | int | float | imaginary => rfl
  | _ => cases h

theorem startsWell_atom : StartsWell (atom g) := by
  refine fun c => Post.here (Post.kind fun k? hk => ?_)
  have hwell {k : TokenKind} {p : Parser Expr} (hkind : c.kind? = some k) (hs : starts k = true) :
      Post p c fun _ _ => ∃ k, c.kind? = some k ∧ starts k = true := fun _ _ _ => ⟨k, hkind, hs⟩
  split
  · exact hwell hk rfl
  · exact hwell hk rfl
  · exact hwell hk rfl
  · exact hwell hk rfl
  · exact hwell hk rfl
  · split
    · rename_i v hv
      exact hwell hk (starts_of_constant hv)
    · exact post_unexpected
  · exact post_unexpected

theorem startsWell_factor : StartsWell (factor g) := by
  have hprimary : StartsWell (primary g) := fun c => Post.here (startsWell_atom.bind c)
  have hpower : StartsWell (power g) := fun c =>
    Post.here (StartsWell.bind (fun c => Post.here (startsWell_word rfl hprimary c)) c)
  refine fun c => Post.here (Post.kind fun k? hk => ?_)
  split
  · rename_i op hop
    obtain ⟨k, rfl, hsign⟩ := Option.bind_eq_some_iff.mp hop
    refine fun _ _ _ => ⟨k, hk, ?_⟩
    cases k with
    | operator o => cases o <;> first | rfl | cases hsign
    | _ => cases hsign
  · exact hpower c

/-- An expression starts with a token that an operand can start with. -/
theorem startsWell_test : StartsWell (test g) := by
  have hoperand : StartsWell (operand g) := by
    unfold operand
    generalize tiers = tiers
    induction tiers with
    | nil => exact startsWell_factor
    | cons tier tiers ih => exact fun c => Post.here (ih.bind c)
  have hcomparison : StartsWell (comparison g) := fun c => Post.here (hoperand.bind c)
  have hnegation : StartsWell (negation g) := fun c => Post.here (startsWell_word rfl hcomparison c)
  have hconjunction : StartsWell (conjunction g) := fun c => Post.here (hnegation.bind c)
  have hdisjunction : StartsWell (disjunction g) := fun c => Post.here (hconjunction.bind c)
  exact fun c => Post.here (startsWell_word rfl hdisjunction.bind c)

end Starts

end Expression

/-- The text of an expression that is read again wherever it is pasted. -/
structure Pasted [CharacterNames] (w : Text) (e : Expr) (ks : List TokenKind) (after : Text) : Prop
    extends Respelled w ks after where
  starts : ∀ k ∈ ks.head?, Expression.starts k.softer = true
  even : ∀ d, Even d d (ks.map TokenKind.softer)
  test : ∀ n, Syntax.load ks < n → ∀ k later, isEnd k = true →
    Gives (Grammar.level n).test (ks.map TokenKind.softer ++ k :: later) (·.bare = e.bare) (k :: later)
  conjunction : e.isLoose = false → ∀ n, Syntax.load ks ≤ n → ∀ k later, isEnd k = true →
    Gives (Expression.conjunction (Grammar.level n)) (ks.map TokenKind.softer ++ k :: later)
      (·.bare = e.bare) (k :: later)

theorem load_softer (ks : List TokenKind) : load (ks.map TokenKind.softer) = load ks := by
  induction ks with
  | nil => rfl
  | cons k ks ih => rw [List.map_cons, load_cons, load_cons, softer_weight, ih]

/-- The text of an expression that stands alone. -/
theorem Expr.IsApart.pasted [CharacterNames] {t : Text} {e : Expr} (h : e.IsApart t)
    (hb : e.needsBrackets = false) :
    ∃ ks after, Pasted (t.slice e.span.start e.span.stop) e ks after := by
  obtain ⟨n, before, x, c, c', htokens, hword, halone⟩ := h.resolve_left (by simp [hb])
  obtain ⟨⟨ts, hts, hne, hwords⟩, -⟩ := (Grammar.level_tells n).test c e c' halone.given
  obtain ⟨y, ys, rfl⟩ := List.exists_cons_of_ne_nil hne
  have hhere : c.here = y.start := by simp [Cursor.here, hts.tokens]
  have hall : (Stream.ofText t 0 true).tokens = before ++ x :: (y :: ys) ++ c'.tokens := by
    rw [htokens, hts.tokens]
    simp
  have hstart : (y :: ys).head?.map Token.start = some c.here := by simp [hhere]
  have hstop : (y :: ys).getLast?.map Token.stop = some c'.stop := by
    simp [hts.stop, List.getLast?_cons]
  obtain ⟨ks, after, hks, hrespelled⟩ := Stream.segment hall hword hwords hstart hstop
  have hload : load ks < n := by
    have hmore := halone.load
    rw [hts.load, hks, load_softer] at hmore
    omega
  have hrest (k : TokenKind) (later : List TokenKind) (hk : isEnd k = true) :
      Follows isEnd c'.kind? (k :: later) := ⟨k, rfl, .inr hk⟩
  have hagain {p p' : Parser Expr} {b : Nat} (hp : Parser.Repeated b isEnd Expr.bare p p')
      (hgiven : p c = .ok (e, c')) (hb : load ks < b) :
      (∀ d, Even d d (ks.map TokenKind.softer)) ∧ ∀ k later, isEnd k = true →
        Gives p' (ks.map TokenKind.softer ++ k :: later) (·.bare = e.bare) (k :: later) := by
    have hat (d : Nat) : Even d d (ks.map TokenKind.softer) ∧ ∀ k later, isEnd k = true →
        Gives p' (ks.map TokenKind.softer ++ k :: later) (·.bare = e.bare) (k :: later) := by
      obtain ⟨-, us, hus, -, heven, hgives⟩ := hp d c e c' hgiven halone.held
      obtain rfl : y :: ys = us := List.append_cancel_right (hts.tokens.symm.trans hus.tokens)
      rw [hks] at heven hgives
      exact ⟨heven, fun k later hk => hgives (by rwa [load_softer]) _ (hrest k later hk)⟩
    exact ⟨fun d => (hat d).1, (hat 0).2⟩
  obtain ⟨n, rfl⟩ : ∃ k, n = k + 1 := ⟨n - 1, by omega⟩
  have hstarts : ∀ k ∈ ks.head?, Expression.starts k.softer = true := by
    intro k hk
    obtain ⟨k', hk', hstarts⟩ := Expression.startsWell_test c e c' halone.given
    obtain ⟨ks, rfl⟩ := List.head?_eq_some_iff.mp hk
    rw [hts.kind?_eq] at hk'
    rw [← (List.cons.inj hks).1, Option.some.inj hk']
    exact hstarts
  rw [halone.span]
  have hsame : (Grammar.level (n + 1)).Repeated (load ks + 1) (Grammar.level (load ks + 1)) :=
    Grammar.level_repeated (Nat.succ_le_of_lt hload) (Nat.le_refl _)
  refine ⟨ks, after, hrespelled, hstarts, (hagain hsame.test halone.given (Nat.lt_succ_self _)).1,
    fun m hm => ?_, fun hloose m hm => ?_⟩
  · have hlevel := Grammar.level_repeated (Nat.succ_le_of_lt hload) (Nat.succ_le_of_lt hm)
    exact (hagain hlevel.test halone.given (Nat.lt_succ_self _)).2
  · have hlevel := Grammar.level_repeated (Nat.le_of_lt_succ hload) hm
    exact (hagain (Expression.repeated_conjunction hlevel)
      (Expression.conjunction_of_test e c' halone.given hloose) (Nat.lt_succ_self _)).2

end Pagewright.Syntax
