import Pagewright.Proofs.Reread.Operators

namespace Pagewright.Syntax

namespace Parser

variable {α γ β δ : Type} {most least b lo hi d : Nat} {stops : TokenKind → Bool}
  {W : List TokenKind → Prop} {erase : α → γ} {erase' : β → δ} {p p' : Parser α} {c : Cursor}
  {k : TokenKind}

/-- No token: a rule that is followed by the token that followed before. -/
def noToken (_ : TokenKind) : Bool :=
  false

theorem Repeated.same (h : Repeated b stops erase p p') : Repeated b noToken erase p p' :=
  fun d c => (h d c).until fun _ h => by cases h

/-- A test of the token that comes next, or that follows as before. -/
theorem Repeats.nextIsSame {test : TokenKind → Bool} {f f' : Bool → Parser β}
    (ht : c.kind?.any test = true → Repeats most least noToken W erase' (f true) (f' true) c)
    (hf : c.kind?.any test = false → Repeats most least noToken W erase' (f false) (f' false) c) :
    Repeats most least noToken W erase' (Parser.nextIs test >>= f) (Parser.nextIs test >>= f') c := by
  refine Repeats.looking post_nextIs fun x hx => ?_
  have h : Repeats most least noToken W erase' (f x) (f' x) c := by
    cases x with
    | true => exact ht hx
    | false => exact hf hx
  refine ⟨(· = x), least, Nat.le_refl _, rfl, fun x' hx' => hx' ▸ h, fun k ks hor => ?_⟩
  exact gives_nextIs_again hx hor fun _ h => by cases h

end Parser

namespace Expression

open Syntax.Parser

variable {b d most : Nat} {g g' : Grammar} {c : Cursor} {start start' : Nat} {typed : Bool}

def ParamState.bare (s : ParamState) : ParamState :=
  ⟨s.stage, s.params.bare, s.bareStar.map fun _ => 0, s.anyDoubleStar⟩

theorem ParamState.continues_bare (s : ParamState) (isFirst : Bool) :
    s.bare.continues isFirst = s.continues isFirst := by
  funext k
  unfold ParamState.continues
  rfl

theorem misplacedParam?_bare (ps : List (Parameter Expr)) :
    (misplacedParam? (ps.map Parameter.bare)).isNone = (misplacedParam? ps).isNone := by
  have hnone : (fun p : Parameter Expr => p.bare.fallback.isNone) = (·.fallback.isNone) := by
    funext p
    simp [Parameter.bare]
  have hsome : (fun p : Parameter Expr => p.bare.fallback.isSome) = (·.fallback.isSome) := by
    funext p
    simp [Parameter.bare]
  simp only [misplacedParam?, List.dropWhile_map, Function.comp_def, List.head?_map,
    Option.isNone_map, hnone, hsome]

example : (misplacedParam? ([⟨⟨0, 6⟩, "limit", none, some (.name ⟨6, 10⟩ "rows")⟩,
    ⟨⟨12, 16⟩, "page", none, none⟩].map Parameter.bare)).isNone = false := by
  decide +kernel

/-- Whether a parameter list is allowed does not depend on places. -/
theorem ParamState.fault?_bare (s : ParamState) : s.bare.fault?.isNone = s.fault?.isNone := by
  have hempty : (s.params.keywordOnly.map Parameter.bare).isEmpty = s.params.keywordOnly.isEmpty :=
    List.isEmpty_map
  have hplaced := misplacedParam?_bare (s.params.positionalOnly ++ s.params.regular)
  rw [List.map_append] at hplaced
  simp only [ParamState.fault?, ParamState.bare, Parameters.bare, hempty]
  cases s.bareStar with
  | none => simpa using hplaced
  | some place =>
    cases hunnamed : s.params.keywordOnly.isEmpty && !s.anyDoubleStar with
    | true => rfl
    | false => simpa using hplaced

theorem repeatedParam?_bare (names : List Text) (ps : List (Parameter Expr)) :
    (repeatedParam? names (ps.map Parameter.bare)).isNone = (repeatedParam? names ps).isNone := by
  induction ps generalizing names with
  | nil => rfl
  | cons p ps ih =>
    change (if names.contains p.name = true then some p.bare else
      repeatedParam? (p.name :: names) (ps.map Parameter.bare)).isNone = _
    rw [repeatedParam?]
    split
    · rfl
    · exact ih _

/-- Two type hints are given by rules of which one repeats the other. -/
def HintAgain (b : Nat) (hint hint' : Option (Parser Expr)) : Prop :=
  (hint = none ∧ hint' = none) ∨ ∃ rule rule', hint = some rule ∧ hint' = some rule' ∧
    Parser.Repeated b noToken Expr.bare rule rule'

theorem repeats_paramName {hint hint' : Option (Parser Expr)} (hhint : HintAgain b hint hint')
    (d : Nat) (c : Cursor) :
    Repeats b 1 noToken (Even d d) Parameter.bare (paramName hint) (paramName hint') c := by
  refine Repeats.here fun start start' => ?_
  refine repeats_identifier.bind fun name name' c₁ hname => ?_
  obtain rfl : name' = name := hname
  have hplain (c₂ : Cursor) : Repeats b 0 noToken (Even d d) Parameter.bare
      (do return ⟨← spanFrom start, name', none, none⟩)
      (do return ⟨← spanFrom start', name', none, none⟩) c₂ :=
    Repeats.span fun s s' => repeats_pure (by simp [Parameter.bare])
  rcases hhint with ⟨rfl, rfl⟩ | ⟨rule, rule', rfl, rfl, hrule⟩
  · exact hplain c₁
  · refine Repeats.accept even_colon rfl (fun c₂ => ?_) fun _ => hplain c₁
    refine ((hrule d c₂).bind fun e e' c₃ he => ?_).weaken
    exact Repeats.span fun s s' => repeats_pure (by simp [Parameter.bare, he])

section Rules

variable (hg : g.Repeated b g')

include hg

omit hg in
theorem hintAgain_of {rule rule' : Parser Expr} (h : Parser.Repeated b noToken Expr.bare rule rule')
    (typed : Bool) : HintAgain b (if typed then some rule else none)
      (if typed then some rule' else none) := by
  cases typed with
  | true => exact .inr ⟨rule, rule', rfl, rfl, h⟩
  | false => exact .inl ⟨rfl, rfl⟩

/-- A parameter adds the same to equal lists. -/
theorem repeats_paramItem {s s' : ParamState} (hs : s'.bare = s.bare) (d : Nat) (c : Cursor) :
    Repeats b 1 noToken (Even d d) ParamState.bare (paramItem g typed s)
      (paramItem g' typed s') c := by
  have hplain := hintAgain_of hg.test.same typed
  have hstar : HintAgain b (if typed then some (testOrStar g) else none)
      (if typed then some (testOrStar g') else none) :=
    hintAgain_of (repeated_testOrStar hg).same typed
  simp only [ParamState.bare, Parameters.bare, ParamState.mk.injEq, Parameters.mk.injEq] at hs
  obtain ⟨hstage, ⟨hpositional, hregular, hvariadic, hkeyword, hlast⟩, hbareStar, hdouble⟩ := hs
  refine Repeats.here fun start start' => ?_
  refine Repeats.acceptOr (even_passed rfl) (fun c₁ => repeats_pure ?_) fun _ => ?_
  · simp [ParamState.bare, Parameters.bare, *]
  refine Repeats.acceptOr (even_passed rfl) (fun c₁ => ?_) fun _ => ?_
  · refine Repeats.nextIsSame (fun _ => ?_) fun _ => repeats_pure ?_
    · refine ((repeats_paramName hstar d c₁).bind fun p p' c₂ hp => repeats_pure ?_).weaken
      simp [ParamState.bare, Parameters.bare, *]
    · simp [ParamState.bare, Parameters.bare, *]
  refine Repeats.acceptOr (even_passed rfl) (fun c₁ => ?_) fun _ => ?_
  · refine Repeats.nextIsSame (fun _ => ?_) fun _ => repeats_pure ?_
    · refine ((repeats_paramName hplain d c₁).bind fun p p' c₂ hp => repeats_pure ?_).weaken
      simp [ParamState.bare, Parameters.bare, *]
    · simp [ParamState.bare, Parameters.bare, *]
  refine (repeats_paramName hplain d c).bind fun p p' c₁ hp => ?_
  refine Repeats.optionalAfter rfl rfl (hg.test.same d) fun fallback fallback' c₂ hf => ?_
  have hp' : (Parameter.bare { p' with fallback := fallback' }) =
      Parameter.bare { p with fallback } := by
    simp only [Parameter.bare, Parameter.mk.injEq] at hp ⊢
    exact ⟨trivial, hp.2.1, hp.2.2.1, hf⟩
  dsimp only
  by_cases hafter : s.stage = .afterStar
  · rw [if_pos hafter, if_pos (hstage.trans hafter)]
    exact repeats_pure (by simp [ParamState.bare, Parameters.bare, *])
  · rw [if_neg hafter, if_neg (hstage ▸ hafter)]
    exact repeats_pure (by simp [ParamState.bare, Parameters.bare, *])

/-- A list of parameters is given again from any equal beginning. -/
theorem repeats_paramItems {fuel fuel' : Nat} {s s' : ParamState} (hs : s'.bare = s.bare)
    (hmost : most ≤ b) (hfuel : most ≤ fuel) (hfuel' : most ≤ fuel') (d : Nat) (c : Cursor) :
    Repeats most 0 noToken (Even d d) ParamState.bare (paramItems g typed fuel s)
      (paramItems g' typed fuel' s') c := by
  induction fuel generalizing most fuel' s s' c with
  | zero =>
    obtain rfl : most = 0 := by omega
    exact (repeats_pure (m := 0) (y := s) rfl).never
  | succ fuel ih =>
    have hcontinues : s'.continues false = s.continues false := by
      rw [← s'.continues_bare, hs, s.continues_bare]
    have hstep (n : Nat) (hn : most ≤ n + 1) : Repeats most 0 noToken (Even d d) ParamState.bare
        (paramItems g typed (fuel + 1) s) (paramItems g' typed (n + 1) s') c := by
      unfold paramItems
      rw [hcontinues]
      refine Repeats.acceptNext (even_passed rfl) rfl (fun c₁ => ?_) fun _ => repeats_pure hs
      refine Repeats.nextIsSame (fun _ => ?_) fun _ => repeats_pure hs
      refine (((repeats_paramItem hg hs d c₁).mono (by omega) (Nat.le_refl _)).bind
        fun r r' c₂ hr => ?_).weaken
      exact ih hr (by omega) (by omega) (by omega) c₂
    cases fuel' with
    | zero =>
      obtain rfl : most = 0 := by omega
      exact (hstep 0 (by omega)).never
    | succ n => exact hstep n hfuel'

/-- Where a fault is held, the result is not read to the end. -/
theorem repeats_paramList {closer : Operator} (d : Nat) (c : Cursor) :
    Repeats b 0 noToken (Even d d) Parameters.bare (paramList g typed closer)
      (paramList g' typed closer) c := by
  have hparams {s s' : ParamState} (h : s'.bare = s.bare) : s'.params.bare = s.params.bare :=
    (ParamState.mk.inj h).2.1
  unfold paramList isSymbolNext
  rw [isNext_eq]
  refine Repeats.nextIsSame (fun _ => repeats_pure rfl) fun _ => ?_
  refine Repeats.nextIsSame (fun _ => ?_) fun _ => repeats_unexpected
  refine ((repeats_paramItem hg rfl d c).bind fun first first' c₁ hfirst => ?_).weaken
  refine (repeats_paramItems hg hfirst (Nat.le_refl b) hg.fuel hg.fuel' d c₁).bind
    fun s s' c₂ hs => ?_
  have hsame : s'.fault?.isNone = s.fault?.isNone := by
    rw [← s'.fault?_bare, hs, s.fault?_bare]
  cases hfault : s.fault? with
  | some f => exact repeats_hold fun c₃ => repeats_pure (y := s.params) rfl
  | none =>
    rw [hfault, Option.isNone_none, Option.isNone_iff_eq_none] at hsame
    rw [hsame]
    exact repeats_pure (hparams hs)

omit hg in
/-- Whether the names of parameters repeat does not depend on places. -/
theorem repeats_checkNames {ps ps' : Parameters Expr} (h : ps'.bare = ps.bare) {β δ : Type}
    {erase' : β → δ} {stops : TokenKind → Bool} {f f' : Unit → Parser β} (hf : ∀ c, Repeats most 0
      stops (Even d d) erase' (f ()) (f' ()) c) (c : Cursor) :
    Repeats most 0 stops (Even d d) erase' (checkNames ps >>= f) (checkNames ps' >>= f') c := by
  have hall (ps : Parameters Expr) :
      ps.bare.single ++ ps.bare.variadic.toList ++ ps.bare.variadicKeyword.toList =
        (ps.single ++ ps.variadic.toList ++ ps.variadicKeyword.toList).map Parameter.bare := by
    have htoList (p : Option (Parameter Expr)) : (p.map Parameter.bare).toList =
        p.toList.map Parameter.bare := by cases p <;> rfl
    simp [Parameters.single, Parameters.bare, htoList]
  have hsame : (repeatedParam? [] (ps'.single ++ ps'.variadic.toList ++
      ps'.variadicKeyword.toList)).isNone = (repeatedParam? [] (ps.single ++ ps.variadic.toList ++
      ps.variadicKeyword.toList)).isNone := by
    rw [← repeatedParam?_bare, ← hall, h, hall, repeatedParam?_bare]
  unfold checkNames
  dsimp only
  cases hrepeated : repeatedParam? [] (ps.single ++ ps.variadic.toList ++
      ps.variadicKeyword.toList) with
  | some p => exact repeats_hold fun c' => hf c'
  | none =>
    rw [hrepeated, Option.isNone_none, Option.isNone_iff_eq_none] at hsame
    rw [hsame]
    exact hf c

/-- The tokens of a lambda behind its word: parameters, a colon and a body. -/
def lambdaShaped (d : Nat) (ks : List TokenKind) : Prop :=
  ∃ params body, ks = params ++ .operator .colon :: body ∧ Even d d params ∧ Even d d body

/-- A lambda is given again behind its word; its colon is the one that the word waits for. -/
theorem repeats_lambda (d : Nat) (c : Cursor) :
    Repeats b 0 isEnd (lambdaShaped d) Expr.bare (lambda g start) (lambda g' start') c := by
  have hcolon (c : Cursor) : Repeats b 1 isEnd (fun ks => ks = [.operator .colon]) placeless
      (expectSymbol .colon) (expectSymbol .colon) c := repeats_expect rfl
  refine ((repeats_paramList hg d c).bindShaped (m := b) (l := 1)
    (V := fun ks => ∃ body, ks = .operator .colon :: body ∧ Even d d body)
    (fun ps ps' c₁ hps => ?_) (fun ks ks' hks hks' => ?_) (Nat.le_add_right _ _)
    fun h => absurd h (by decide)).weaken
  · refine (hcolon c₁).bindShaped (m := b) (l := 0) (V := Even d d) (fun _ _ c₂ _ => ?_)
      (fun ks ks' hks hks' => ⟨ks', by rw [hks]; rfl, hks'⟩) (Nat.le_add_right _ _) fun _ _ => id
    refine ((hg.test d c₂).bind fun body body' c₃ hbody => ?_).weaken
    refine repeats_checkNames hps (fun c₄ => ?_) c₃
    exact Repeats.span fun s s' => repeats_pure (by rw [bare_lambda, bare_lambda, hps, hbody])
  · obtain ⟨body, rfl, hbody⟩ := hks'
    exact ⟨ks, body, rfl, hks, hbody⟩

/-- A conditional or a lambda is given again if disjunctions are. -/
theorem repeated_test : Parser.Repeated (b + 1) isEnd Expr.bare (test g) (test g') := by
  intro d c
  refine Repeats.here fun start start' => ?_
  refine Repeats.acceptShaped (repeats_lambda hg d) (fun _ => ?_) (fun ks hks => ?_)
    (Nat.le_refl _) (Nat.le_refl _) fun h => absurd h (by decide)
  · refine (repeated_disjunction hg d c).then fun body body' c₁ hbody => ?_
    refine Repeats.accept (even_passed rfl) rfl (fun c₂ => ?_) fun _ => repeats_pure hbody
    refine (((repeated_disjunction hg).lower (Nat.le_succ b) d c₂).bind
      fun condition condition' c₃ hcondition => ?_).weaken
    refine (Repeats.expect (even_passed rfl) fun c₄ => ?_).weaken
    refine ((hg.test d c₄).bind fun orelse orelse' c₅ horelse => ?_).weaken
    exact Repeats.span fun s s' => repeats_pure (by simp [Expr.bare, hbody, hcondition, horelse])
  · obtain ⟨params, body, rfl, hparams, hbody⟩ := hks
    exact hparams.lambda hbody

end Rules

end Expression

open Syntax.Parser Expression

theorem Grammar.level_names [CharacterNames] (n n' : Nat) :
    (Grammar.level n').names = (Grammar.level n).names := by
  cases n <;> cases n' <;> rfl

/-- The rules of one level repeat what those of another one give, as far as both reach. -/
theorem Grammar.level_repeated [CharacterNames] {b n n' : Nat} (hn : b ≤ n) (hn' : b ≤ n') :
    (Grammar.level n).Repeated b (Grammar.level n') := by
  induction n generalizing b n' with
  | zero =>
    obtain rfl : b = 0 := by omega
    have hnone (p' : Parser Expr) : Parser.Repeated 0 isEnd Expr.bare unexpected p' :=
      fun _ _ => repeats_unexpected
    exact ⟨level_tells 0, level_names _ _, Nat.zero_le _, Nat.zero_le _, hnone _, hnone _, hnone _,
      hnone _, hnone _⟩
  | succ n ih =>
    cases b with
    | zero =>
      have hg := ih (Nat.zero_le n) (Nat.zero_le 0)
      have hnone {p p' p'' : Parser Expr} (h : Parser.Repeated 1 isEnd Expr.bare p p') :
          Parser.Repeated 0 isEnd Expr.bare p p'' :=
        fun d c => ((h d c).mono (Nat.zero_le 1) (Nat.le_refl 1)).never
      exact ⟨level_tells _, level_names _ _, Nat.zero_le _, Nat.zero_le _,
        hnone (repeated_test hg), hnone (repeated_disjunction hg), hnone (repeated_negation hg),
        hnone (repeated_operand hg), hnone (repeated_factor hg)⟩
    | succ b =>
      obtain ⟨n', rfl⟩ : ∃ m, n' = m + 1 := ⟨n' - 1, by omega⟩
      have hg := ih (by omega : b ≤ n) (by omega : b ≤ n')
      exact ⟨level_tells _, level_names _ _, hn, hn', repeated_test hg, repeated_disjunction hg,
        repeated_negation hg, repeated_operand hg, repeated_factor hg⟩

end Pagewright.Syntax
