import Pagewright.Proofs.Grammar.Primaries
import Pagewright.Proofs.Grammar.Told
import Pagewright.Proofs.Reread.Bare
import Pagewright.Proofs.Reread.Tokens

namespace Pagewright.Syntax

open Syntax.Parser

def closers : List TokenKind :=
  [.operator .rightParen, .operator .rightBracket, .operator .rightBrace, .newline]

def isClosing (k : TokenKind) : Bool :=
  closers.contains k

def isEnd (k : TokenKind) : Bool :=
  (.operator .comma :: closers).contains k

theorem isEnd_of_isClosing {k : TokenKind} (h : isClosing k = true) : isEnd k = true := by
  simp only [isEnd, isClosing, List.contains_cons] at h ⊢
  rw [h, Bool.or_true]

theorem closing_all {test : TokenKind → Bool} (h : closers.all (!test ·) = true) (k : TokenKind)
    (hk : isClosing k = true) : test k = false := by
  have hmem : k ∈ closers := by simpa [isClosing] using hk
  simpa using List.all_eq_true.mp h k hmem

theorem end_all {test : TokenKind → Bool}
    (h : (.operator .comma :: closers).all (!test ·) = true) (k : TokenKind)
    (hk : isEnd k = true) : test k = false := by
  have hmem : k ∈ .operator .comma :: closers := by simpa [isEnd] using hk
  simpa using List.all_eq_true.mp h k hmem

-- A comma ends one expression, but not the expressions of a list.
example : isEnd (.operator .comma) = true ∧ isClosing (.operator .comma) = false := by
  decide +kernel

namespace Parser

def Repeated {α γ : Type} (b : Nat) (stops : TokenKind → Bool) (erase : α → γ) (p p' : Parser α) :
    Prop :=
  ∀ (d : Nat) (c : Cursor), Repeats b 1 stops (Even d d) erase p p' c

variable {α γ : Type} {b b' : Nat} {stops : TokenKind → Bool} {erase : α → γ} {p p' : Parser α}

theorem Repeated.lower (h : Repeated b stops erase p p') (hb : b' ≤ b) :
    Repeated b' stops erase p p' :=
  fun d c => (h d c).mono hb (Nat.le_refl _)

theorem Repeated.closing (h : Repeated b isEnd erase p p') : Repeated b isClosing erase p p' :=
  fun d c => (h d c).until fun _ => isEnd_of_isClosing

end Parser

structure Grammar.Repeated (b : Nat) (g g' : Grammar) : Prop where
  tells : g.Tells
  names : g'.names = g.names
  fuel : b ≤ g.fuel
  fuel' : b ≤ g'.fuel
  test : Parser.Repeated b isEnd Expr.bare g.test g'.test
  disjunction : Parser.Repeated b isEnd Expr.bare g.disjunction g'.disjunction
  negation : Parser.Repeated b isEnd Expr.bare g.negation g'.negation
  operand : Parser.Repeated b isEnd Expr.bare g.operand g'.operand
  factor : Parser.Repeated b isEnd Expr.bare g.factor g'.factor

namespace Expression

variable {b d : Nat} {g g' : Grammar} {c : Cursor} {start start' : Nat}

abbrev bareItems : List Expr × Bool → List Expr × Bool :=
  erasedItems Expr.bare

/-- Items group into the same tuple wherever they stand. -/
theorem repeats_grouped {found found' : List Expr × Bool} (h : bareItems found' = bareItems found) :
    Repeats b 0 isClosing (Even d d) Expr.bare (grouped start found) (grouped start' found') c := by
  obtain ⟨es, isOpen⟩ := found
  obtain ⟨es', isOpen'⟩ := found'
  obtain ⟨hes, rfl⟩ : es'.map Expr.bare = es.map Expr.bare ∧ isOpen' = isOpen := by
    simpa [erasedItems] using h
  have htuple (s s' : Span) : (Expr.tuple s' es').bare = (Expr.tuple s es).bare := by
    simp [Expr.bare, bareAll_eq, hes]
  rcases es with _ | ⟨e₁, _ | ⟨e₂, es⟩⟩
  · obtain rfl : es' = [] := by simpa using hes
    exact Repeats.span fun s s' => repeats_pure (htuple s s')
  · obtain ⟨e', rfl, he⟩ := List.map_eq_singleton_iff.mp hes
    cases isOpen' with
    | false => exact repeats_pure he
    | true => exact Repeats.span fun s s' => repeats_pure (htuple s s')
  · obtain ⟨e₁', later, rfl, -, hlater⟩ := List.map_eq_cons_iff.mp hes
    obtain ⟨e₂', es', rfl, -, -⟩ := List.map_eq_cons_iff.mp hlater
    exact Repeats.span fun s s' => repeats_pure (htuple s s')

section Rules

variable (hg : g.Repeated b g')

include hg

theorem repeated_named : Parser.Repeated b isEnd Expr.bare (named g) (named g') := by
  intro d c
  refine Repeats.here fun start start' => ?_
  refine Repeats.nameBefore rfl rfl (fun h => ?_) fun _ => hg.test d c
  refine Repeats.nameAndSymbol rfl (areNameAnd_second h) fun target c₁ => ?_
  refine ((hg.test d c₁).bind fun value value' c₂ hv => ?_).weaken
  exact repeats_pure (by simp [Expr.bare, hv])

/-- In a binding the name and the symbol behind it are taken. -/
theorem repeats_binding (h : areNameAnd .colonEqual c.kind? c.second? = true) :
    Repeats b 2 isEnd (Even d d) Expr.bare (named g) (named g') c := by
  refine Repeats.here fun start start' => ?_
  refine Repeats.nameBefore rfl rfl (fun h => ?_) fun hno => ?_
  · refine Repeats.nameAndSymbol rfl (areNameAnd_second h) fun target c₁ => ?_
    refine ((hg.test d c₁).bind fun value value' c₂ hv => ?_).weaken
    exact repeats_pure (by simp [Expr.bare, hv])
  · rw [h] at hno
    cases hno

theorem repeated_starred : Parser.Repeated b isEnd Expr.bare (starred g) (starred g') := by
  intro d c
  refine Repeats.here fun start start' => ?_
  refine Repeats.expect (even_passed rfl) fun c₁ => ?_
  refine ((hg.operand d c₁).bind fun value value' c₂ hv => ?_).weaken
  exact Repeats.span fun s s' => repeats_pure (by simp [Expr.bare, hv])

theorem repeated_testOrStar :
    Parser.Repeated b isEnd Expr.bare (testOrStar g) (testOrStar g') := by
  intro d c
  refine Repeats.isNextFirst (fun _ => ?_) fun _ => ?_
  · exact repeated_starred hg d c
  · exact hg.test d c

theorem repeated_namedOrStar :
    Parser.Repeated b isEnd Expr.bare (namedOrStar g) (namedOrStar g') := by
  intro d c
  refine Repeats.isNextFirst (fun _ => ?_) fun _ => ?_
  · exact repeated_starred hg d c
  · exact repeated_named hg d c

theorem repeated_operandOrStar :
    Parser.Repeated b isEnd Expr.bare (operandOrStar g) (operandOrStar g') := by
  intro d c
  refine Repeats.isNextFirst (fun _ => ?_) fun _ => ?_
  · exact repeated_starred hg d c
  · exact hg.operand d c

/-- Items with commas are one expression. -/
theorem repeats_list {starts : TokenKind → Bool} {item item' : Parser Expr}
    (hstarts : closers.all (!starts ·) = true) (hitem : Parser.Repeated b isEnd Expr.bare item item')
    (d : Nat) (c : Cursor) :
    Repeats b 1 isClosing (Even d d) Expr.bare (items g.fuel starts item >>= grouped start)
      (items g'.fuel starts item' >>= grouped start') c := by
  refine (repeats_items rfl (closing_all hstarts) (hitem.closing d) hg.fuel hg.fuel' c).bind ?_
  exact fun found found' c₁ hfound => repeats_grouped hfound

theorem repeated_testList :
    Parser.Repeated b isClosing Expr.bare (testList g) (testList g') :=
  fun d c => Repeats.here fun _ _ => repeats_list hg (by decide) (repeated_testOrStar hg) d c

theorem repeated_targetList :
    Parser.Repeated b isClosing Expr.bare (targetList g) (targetList g') :=
  fun d c => Repeats.here fun _ _ => repeats_list hg (by decide) (repeated_operandOrStar hg) d c

theorem repeated_yielded :
    Parser.Repeated b isClosing Expr.bare (yielded g) (yielded g') := by
  intro d c
  refine Repeats.here fun start start' => ?_
  refine Repeats.expect (even_passed rfl) fun c₁ => ?_
  refine Repeats.accept (even_passed rfl) rfl (fun c₂ => ?_) fun _ => ?_
  · refine ((hg.test.closing d c₂).bind fun value value' c₃ hv => ?_).weaken
    exact Repeats.span fun s s' => repeats_pure (by simp [Expr.bare, hv])
  · refine Repeats.nextIs (closing_all (by decide)) (fun _ => ?_) fun _ => ?_
    · refine (repeated_testList hg d c₁).bind fun value value' c₂ hv => ?_
      exact Repeats.span fun s s' => repeats_pure (by simp [Expr.bare, bare?_eq, hv])
    · exact Repeats.span fun s s' => repeats_pure (by simp [Expr.bare])

theorem repeated_generator :
    Parser.Repeated b isClosing Generator.bare (generator g) (generator g') := by
  intro d c
  have hrest (isAsync : Bool) (c : Cursor) : Repeats b 1 isClosing (Even d d) Generator.bare
      (do
        expectWord .forWord
        let target ← targetList g
        expectWord .inWord
        let source ← g.disjunction
        let conditions ← manyWhile (acceptWord .ifWord) g.disjunction g.fuel
        return ⟨target, source, conditions, isAsync⟩)
      (do
        expectWord .forWord
        let target ← targetList g'
        expectWord .inWord
        let source ← g'.disjunction
        let conditions ← manyWhile (acceptWord .ifWord) g'.disjunction g'.fuel
        return ⟨target, source, conditions, isAsync⟩) c := by
    refine Repeats.expect (even_passed rfl) fun c₁ => ?_
    refine ((repeated_targetList hg d c₁).bind fun target target' c₂ htarget => ?_).weaken
    refine (Repeats.expect (even_passed rfl) fun c₃ => ?_).weaken
    refine ((hg.disjunction.closing d c₃).bind fun source source' c₄ hsource => ?_).weaken
    refine (repeats_manyWhile (guards_accept rfl rfl) (hg.disjunction.closing d) hg.fuel hg.fuel'
      c₄).bind fun conditions conditions' c₅ hconditions => ?_
    exact repeats_pure (by simp [Generator.bare, htarget, hsource, hconditions])
  exact Repeats.acceptOr (even_passed rfl) (fun c₁ => (hrest true c₁).weaken) fun _ => hrest false c

theorem repeated_generators :
    Parser.Repeated b isClosing (List.map Generator.bare) (generators g) (generators g') := by
  intro d c
  refine (repeated_generator hg d c).bind fun first first' c₁ hfirst => ?_
  refine (repeats_manyWhile (guards_nextIs (closing_all (by decide))) (repeated_generator hg d)
    hg.fuel hg.fuel' c₁).bind fun later later' c₂ hlater => ?_
  exact repeats_pure (by rw [List.map_cons, List.map_cons, hfirst, hlater])

theorem repeated_argument :
    Parser.Repeated b isClosing Argument.bare (argument g) (argument g') := by
  intro d c
  refine Repeats.here fun start start' => ?_
  refine Repeats.acceptOr (even_passed rfl) (fun c₁ => ?_) fun _ => ?_
  · refine ((hg.test.closing d c₁).bind fun value value' c₂ hv => ?_).weaken
    exact Repeats.span fun s s' => repeats_pure (by simp [Argument.bare, Expr.bare, hv])
  refine Repeats.acceptOr (even_passed rfl) (fun c₁ => ?_) fun _ => ?_
  · refine ((hg.test.closing d c₁).bind fun value value' c₂ hv => ?_).weaken
    exact repeats_pure (by simp [Argument.bare, hv])
  refine Repeats.nameBefore rfl rfl (fun h => ?_) fun _ => ?_
  · refine Repeats.nameAndSymbol rfl (areNameAnd_second h) fun name c₁ => ?_
    refine ((hg.test.closing d c₁).bind fun value value' c₂ hv => ?_).weaken
    exact repeats_pure (by simp [Argument.bare, hv])
  · refine ((repeated_named hg).closing d c).bind fun value value' c₁ hv => ?_
    refine Repeats.nextIs (closing_all (by decide)) (fun _ => ?_) fun _ => ?_
    · refine (repeated_generators hg d c₁).bind fun gs gs' c₂ hgs => ?_
      refine Repeats.span fun s s' => repeats_pure ?_
      simp [Argument.bare, Expr.bare, bareGenerators_eq, hv, hgs]
    · exact repeats_pure (by simp [Argument.bare, hv])

/-- Arguments are given again one after the other up to the closing bracket. -/
theorem repeats_argumentItems {most fuel fuel' : Nat} (hmost : most ≤ b) (hfuel : most ≤ fuel)
    (hfuel' : most ≤ fuel') (c : Cursor) :
    Repeats most 0 isClosing (Even d d) (List.map Argument.bare) (argumentItems g fuel)
      (argumentItems g' fuel') c := by
  induction fuel generalizing most fuel' c with
  | zero =>
    obtain rfl : most = 0 := by omega
    exact (repeats_pure (m := 0) (y := []) rfl).never
  | succ fuel ih =>
    have hstep (n : Nat) (hn : most ≤ n + 1) :
        Repeats most 0 isClosing (Even d d) (List.map Argument.bare)
          (argumentItems g (fuel + 1)) (argumentItems g' (n + 1)) c := by
      refine Repeats.nextIs (closing_all (by decide)) (fun _ => ?_) fun _ => repeats_pure rfl
      refine ((repeated_argument hg).lower hmost d c).bindShaped (m := most - 1) (l := 0)
        (fun a a' c₁ ha => ?_) (fun _ _ => Even.append) (by omega) fun _ _ => id
      refine Repeats.accept (even_passed rfl) rfl (fun c₂ => ?_) fun _ => ?_
      · refine (ih (by omega) (by omega) (by omega : most - 1 ≤ n) c₂).bind fun as as' c₃ has => ?_
        exact repeats_pure (by rw [List.map_cons, List.map_cons, ha, has])
      · exact repeats_pure (by rw [List.map_cons, List.map_cons, ha])
    cases fuel' with
    | zero =>
      obtain rfl : most = 0 := by omega
      exact (hstep 0 (by omega)).never
    | succ n => exact hstep n hfuel'

omit hg in
/-- Whether arguments are allowed does not depend on their places. -/
theorem argumentFault?_bare (names : List Text) (anyKeyword unpacked : Bool) (as : List Argument) :
    (argumentFault? names anyKeyword unpacked (as.map Argument.bare)).isNone =
      (argumentFault? names anyKeyword unpacked as).isNone := by
  induction as generalizing names anyKeyword unpacked with
  | nil => rfl
  | cons a as ih =>
    cases a with
    | positional value =>
      simp only [List.map_cons, Argument.bare, argumentFault?, isStarred_bare]
      split
      · rfl
      · split
        · rfl
        · exact ih names anyKeyword unpacked
    | keyword start name value =>
      cases name with
      | none => exact ih names true true
      | some name =>
        simp only [List.map_cons, Argument.bare, argumentFault?]
        split
        · rfl
        · exact ih (name :: names) true unpacked

omit hg in
example : argumentFault? [] false false
    ([.keyword 5 (some "limit") (.name ⟨11, 15⟩ "rows"), .positional (.name ⟨17, 21⟩ "page")].map
      Argument.bare) = some ⟨.positionalAfterKeyword, 0⟩ := by
  decide +kernel

omit hg in
def parted (as : List Argument) : List Expr × List (KeywordArg Expr) :=
  (as.filterMap positional?, as.filterMap keyword?)

omit hg in
/-- Equal arguments part into equal positional and keyword arguments. -/
theorem parted_bare {as as' : List Argument} (h : as'.map Argument.bare = as.map Argument.bare) :
    ((parted as').1.map Expr.bare, (parted as').2.map KeywordArg.bare) =
      ((parted as).1.map Expr.bare, (parted as).2.map KeywordArg.bare) := by
  have hpositional (as : List Argument) : (as.filterMap positional?).map Expr.bare =
      (as.map Argument.bare).filterMap positional? := by
    rw [List.filterMap_map, List.map_filterMap]
    exact List.filterMap_congr fun a _ => by cases a <;> rfl
  have hkeyword (as : List Argument) : (as.filterMap keyword?).map KeywordArg.bare =
      (as.map Argument.bare).filterMap keyword? := by
    rw [List.filterMap_map, List.map_filterMap]
    exact List.filterMap_congr fun a _ => by cases a <;> rfl
  rw [parted, parted, hpositional, hpositional, hkeyword, hkeyword, h]

/-- All arguments of a call are given again, those by position apart from those by name. -/
theorem repeats_arguments (d : Nat) (c : Cursor) :
    Repeats b 0 isClosing (Even d d) (fun r => (r.1.map Expr.bare, r.2.map KeywordArg.bare))
      (arguments g) (arguments g') c := by
  refine (repeats_argumentItems hg (Nat.le_refl _) hg.fuel hg.fuel' c).bind
    fun found found' c₁ hfound => ?_
  have hsame : argumentFault? [] false false found = none →
      argumentFault? [] false false found' = none := by
    rw [← Option.isNone_iff_eq_none, ← Option.isNone_iff_eq_none, ← argumentFault?_bare, ← hfound,
      argumentFault?_bare]
    exact id
  cases hfault : argumentFault? [] false false found with
  | some f => exact repeats_hold fun c' => repeats_pure (y := parted found) rfl
  | none =>
    rw [hsame hfault]
    exact repeats_pure (x := parted found) (y := parted found') (parted_bare hfound)

/-- The rest of a slice that starts with a part that stands for itself. -/
theorem repeats_sliceRest {lower lower' : Option Expr}
    (hlower : lower'.map Expr.bare = lower.map Expr.bare) (d : Nat) (c : Cursor) :
    Repeats b 1 isClosing (Even d d) Expr.bare (sliceRest g start lower)
      (sliceRest g' start' lower') c := by
  refine Repeats.expect even_colon fun c₁ => ?_
  refine Repeats.optional (closing_all (by decide)) (hg.test.closing d)
    fun upper upper' c₂ hupper => ?_
  refine Repeats.accept even_colon rfl (fun c₃ => ?_) fun _ => ?_
  · refine Repeats.optional (closing_all (by decide)) (hg.test.closing d)
      fun step step' c₄ hstep => ?_
    refine Repeats.span fun s s' => repeats_pure ?_
    simp [Expr.bare, bare?_eq, hlower, hupper, hstep]
  · have hend : Repeats b 0 isClosing (Even d d) Expr.bare
        (do return .slice (← spanFrom start) lower upper none)
        (do return .slice (← spanFrom start') lower' upper' none) c₂ := by
      refine Repeats.span fun s s' => repeats_pure ?_
      simp [Expr.bare, bare?_eq, hlower, hupper]
    exact hend

theorem repeats_bindingOrStar (h : areNameAnd .colonEqual c.kind? c.second? = true) :
    Repeats b 2 isEnd (Even d d) Expr.bare (namedOrStar g) (namedOrStar g') c := by
  refine Repeats.isNextFirst (fun hstar => ?_) fun _ => repeats_binding hg h
  rw [hstar] at h
  cases h

theorem repeated_subscriptItem :
    Parser.Repeated b isClosing Expr.bare (subscriptItem g) (subscriptItem g') := by
  intro d c
  refine Repeats.here fun start start' => ?_
  refine Repeats.isNextFirst (fun _ => repeats_sliceRest hg rfl d c) fun _ => ?_
  refine Repeats.nameBefore rfl rfl (fun h => ?_) fun _ => ?_
  · refine Repeats.isNextFirst (fun _ => ?_) fun _ => ?_
    all_goals
      refine ((repeats_bindingOrStar hg h).until fun _ => isEnd_of_isClosing).bind
        fun value value' c₁ hv => ?_
      exact Repeats.isNextEither fun x x' => repeats_pure hv
  · refine Repeats.isNextFirst (fun _ => ?_) fun _ => ?_
    · refine ((repeated_namedOrStar hg).closing d c).bind fun value value' c₁ hv => ?_
      exact Repeats.isNextEither fun x x' => repeats_pure hv
    · refine ((repeated_namedOrStar hg).closing d c).bind fun value value' c₁ hv => ?_
      refine Repeats.isNext rfl (fun _ => ?_) fun _ => repeats_pure hv
      exact repeats_sliceRest hg (by simp [hv]) d c₁

theorem repeated_subscripts :
    Parser.Repeated b isClosing Expr.bare (subscripts g) (subscripts g') := by
  intro d c
  refine Repeats.here fun start start' => ?_
  refine (repeats_items rfl (closing_all (by decide)) (repeated_subscriptItem hg d) hg.fuel hg.fuel'
    c).bind ?_
  exact fun found found' c₁ hfound => repeats_grouped hfound

end Rules

end Expression
end Pagewright.Syntax
