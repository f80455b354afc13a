import Pagewright.Proofs.Reread.Fields

namespace Pagewright.Syntax.Expression

open Syntax.Parser LiteralValue

variable {b d : Nat} {g g' : Grammar} {c : Cursor} {start start' : Nat}

section Literals

def literalParts (fuel : Nat) : Parser (Part × List Part) := do
  let first ← literalPart
  let rest ← manyWhile (nextIs isLiteral) literalPart fuel
  return (first, rest)

def denoted (g : Grammar) (parts : Part × List Part) : Parser Expr :=
  match ofParts g.names (fieldReader g) parts.1 parts.2 with
  | .ok value => return value
  | .error f => do
    hold f
    return .constant parts.1.span .none

theorem literals_eq (g : Grammar) : literals g = literalParts g.fuel >>= denoted g := by
  unfold literals literalParts
  simp only [bind_assoc, pure_bind]
  rfl

theorem post_literalPart : Post literalPart c fun p c' =>
    ∃ t, c.Takes [t] c' ∧ t.kind = .literal p.literal ∧ (c'.held = none → c.Clear c') := by
  unfold literalPart
  refine Post.next ?_
  split
  · rename_i l first last hnext
    have hk : c.kind? = some (.literal l) := by simp [Cursor.kind?, hnext]
    exact (post_take_clear hk).bind fun _ c' h => post_pure h
  · exact post_unexpected

theorem repeats_literalPart (d : Nat) {stops : TokenKind → Bool} {most : Nat} (c : Cursor) :
    Repeats most 1 stops (Even d d) Part.literal literalPart literalPart c := by
  intro p c₁ hp hclear
  obtain ⟨t, ht, hkind, hc⟩ := post_literalPart p c₁ hp
  refine ⟨hc hclear, [t], ht, Nat.le_refl _, by simpa [hkind] using even_passed rfl, ?_⟩
  intro _ rest _
  rw [List.map_singleton, hkind]
  exact literalPart_gives

/-- Neighbouring literals as they are written, without places. -/
def writtenParts (parts : Part × List Part) : List Literal :=
  (parts.1 :: parts.2).map Part.literal

theorem repeats_literalParts {fuel fuel' : Nat} (hfuel : b ≤ fuel) (hfuel' : b ≤ fuel') (d : Nat)
    (c : Cursor) : Repeats (b + 1) 1 isEnd (Even d d) writtenParts (literalParts fuel)
      (literalParts fuel') c := by
  refine (repeats_literalPart d c).then fun first first' c₁ hfirst => ?_
  refine (repeats_manyWhile (guards_nextIs (end_all (by decide))) (repeats_literalPart d) hfuel
    hfuel' c₁).bind fun rest rest' c₂ hrest => ?_
  exact repeats_pure (by simp [writtenParts, hfirst, hrest])

/-- Neighbouring literals are exactly the literals that were taken. -/
theorem post_literalParts (fuel : Nat) (c : Cursor) : Post (literalParts fuel) c fun r c' =>
    ∃ ts, c.Takes ts c' ∧ ts.map Token.kind = (writtenParts r).map TokenKind.literal := by
  have hmany (fuel : Nat) (c : Cursor) : Post (manyWhile (nextIs isLiteral) literalPart fuel) c
      fun ps c' => ∃ ts, c.Takes ts c' ∧
        ts.map Token.kind = ps.map fun p => .literal p.literal := by
    induction fuel generalizing c with
    | zero => exact post_pure ⟨[], .refl c, rfl⟩
    | succ fuel ih =>
      refine looks_nextIs.bind fun b => ?_
      cases b with
      | true =>
        refine post_literalPart.bind fun p c₁ h => ?_
        obtain ⟨t, ht, hkind, -⟩ := h
        refine (ih c₁).bind fun ps c₂ h => post_pure ?_
        obtain ⟨ts, hts, hkinds⟩ := h
        exact ⟨t :: ts, ht.trans hts, by simp [hkind, hkinds]⟩
      | false => exact post_pure ⟨[], .refl c, rfl⟩
  refine post_literalPart.bind fun p c₁ h => (hmany fuel c₁).bind fun ps c₂ h' => post_pure ?_
  obtain ⟨t, ht, hkind, -⟩ := h
  obtain ⟨ts, hts, hkinds⟩ := h'
  exact ⟨t :: ts, ht.trans hts, by simp [writtenParts, hkind, hkinds]⟩

/-- A literal is lighter than all tokens together. -/
theorem weight_le_load {k : TokenKind} {ks : List TokenKind} (h : k ∈ ks) : k.weight ≤ load ks := by
  induction ks with
  | nil => cases h
  | cons k' ks ih =>
    rw [load_cons]
    rcases List.mem_cons.mp h with rfl | h
    · exact Nat.le_add_right _ _
    · exact (ih h).trans (Nat.le_add_left _ _)

example : (TokenKind.name "rows").weight ≤ load [.name "rows", .operator .comma] := by
  decide +kernel

/-- A literal that is read to the end denotes something. -/
theorem denoted_clear {parts : Part × List Part} {c' : Cursor} {e : Expr}
    (h : denoted g parts c = .ok (e, c')) (hclear : c'.held = none) :
    c' = c ∧ ofParts g.names (fieldReader g) parts.1 parts.2 = .ok e := by
  unfold denoted at h
  cases hparts : ofParts g.names (fieldReader g) parts.1 parts.2 with
  | ok value =>
    rw [hparts] at h
    obtain ⟨rfl, rfl⟩ := Prod.mk.inj (Except.ok.inj h)
    exact ⟨rfl, rfl⟩
  | error f =>
    rw [hparts] at h
    obtain ⟨-, rfl⟩ := Prod.mk.inj (Except.ok.inj h)
    cases hc : c.held <;> simp [hc] at hclear

/-- Neighbouring literals denote the same value again, since their fields are no deeper than they
are long. -/
theorem repeated_literals (hg : g.Repeated b g') :
    Parser.Repeated (b + 1) isEnd Expr.bare (literals g) (literals g') := by
  intro d c e c₂ he hclear
  rw [literals_eq] at he
  obtain ⟨parts, c₁, hparts, hdenoted⟩ : ∃ parts c₁, literalParts g.fuel c = .ok (parts, c₁) ∧
      denoted g parts c₁ = .ok (e, c₂) := by
    simp only [Bind.bind, StateT.bind, Except.bind] at he
    split at he
    · cases he
    · rename_i r hr
      exact ⟨r.1, r.2, hr, he⟩
  obtain ⟨rfl, hvalue⟩ := denoted_clear hdenoted hclear
  obtain ⟨hc, ts, hts, hpos, hshape, hagain⟩ :=
    repeats_literalParts hg.fuel hg.fuel' d c parts c₂ hparts hclear
  obtain ⟨us, hus, hkinds⟩ := post_literalParts g.fuel c parts c₂ hparts
  obtain rfl : ts = us := List.append_cancel_right (hts.tokens.symm.trans hus.tokens)
  refine ⟨hc, ts, hts, hpos, hshape, fun hload rest hrest => ?_⟩
  rw [literals_eq]
  refine (hagain hload rest hrest).bind fun parts' hsame => ?_
  obtain ⟨hfirst, hrest⟩ := List.cons.inj hsame
  -- A literal is no longer than the budget of the rules that read its fields.
  have hlength : ∀ p ∈ parts.1 :: parts.2, p.literal.content.length ≤ (b - 4) / 2 := by
    intro p hp
    have hmem : TokenKind.literal p.literal ∈ ts.map Token.kind := by
      rw [hkinds]
      exact List.mem_map_of_mem (List.mem_map_of_mem hp)
    have hweight := weight_le_load hmem
    simp only [TokenKind.weight] at hweight
    omega
  have hbudget : 2 * ((b - 4) / 2) + 4 ≤ b := by
    have hmem : TokenKind.literal parts.1.literal ∈ ts.map Token.kind := by
      rw [hkinds]
      simp [writtenParts]
    have hweight := weight_le_load hmem
    simp only [TokenKind.weight] at hweight
    omega
  obtain ⟨e', he', hbare⟩ := ofParts_again (fields_again hg hbudget) hfirst hrest hlength hvalue
  unfold denoted
  rw [hg.names, he']
  exact gives_pure hbare

end Literals

section Brackets

variable (hg : g.Repeated b g')

include hg

/-- Items up to the bracket that closes them. -/
theorem repeats_untilClosing {α γ β δ : Type} {erase : α → γ} {erase' : β → δ}
    {starts : TokenKind → Bool} {item item' : Parser α} {f f' : List α × Bool → Parser β}
    (hstarts : closers.all (!starts ·) = true) (hitem : Parser.Repeated b isEnd erase item item')
    (hf : ∀ r r' c₁, erasedItems erase r' = erasedItems erase r →
      Repeats b 1 isEnd (Even (d + 1) d) erase' (f r) (f' r') c₁) (c : Cursor) :
    Repeats b 1 isEnd (Even (d + 1) d) erase' (moreItems starts item g.fuel >>= f)
      (moreItems starts item' g'.fuel >>= f') c :=
  (repeats_moreItems rfl (closing_all hstarts) (hitem.closing (d + 1)) hg.fuel hg.fuel' c).andThen hf

/-- What a parenthesis encloses is given again, with the bracket that closes it. -/
theorem repeats_afterParen (d : Nat) (c : Cursor) :
    Repeats b 1 isEnd (Even (d + 1) d) Expr.bare (afterParen g start) (afterParen g' start') c := by
  refine Repeats.here fun inner inner' => ?_
  refine Repeats.acceptOr (even_close rfl) (fun c₁ => ?_) fun _ => ?_
  · exact Repeats.span fun s s' => repeats_pure (by simp [Expr.bare])
  refine Repeats.isNextFirst (fun _ => ?_) fun _ => ?_
  · refine (repeated_yielded hg (d + 1) c).andThen fun value value' c₁ hv => ?_
    exact Repeats.expect (even_close rfl) fun c₂ => repeats_pure hv
  refine Repeats.acceptOr (even_passed rfl) (fun c₁ => ?_) fun _ => ?_
  · refine ((hg.operand (d + 1) c₁).andThen fun value value' c₂ hv => ?_)
    refine Repeats.expect (even_close rfl) fun c₃ => ?_
    exact repeats_hold fun c₄ => repeats_pure (y := value) rfl
  refine (repeated_namedOrStar hg (d + 1) c).andThen fun first first' c₁ hfirst => ?_
  have hstarred := isStarred_of_bare hfirst
  have hitems : Repeats b 1 isEnd (Even (d + 1) d) Expr.bare
      (do
        let found ← moreItems startsItem (namedOrStar g) g.fuel
        expectSymbol .rightParen
        if found.1.isEmpty && !found.2 then
          if first.isStarred then hold ⟨.starred, first.span.start⟩
          return first
        else return .tuple (← spanFrom start) (first :: found.1))
      (do
        let found ← moreItems startsItem (namedOrStar g') g'.fuel
        expectSymbol .rightParen
        if found.1.isEmpty && !found.2 then
          if first'.isStarred then hold ⟨.starred, first'.span.start⟩
          return first'
        else return .tuple (← spanFrom start') (first' :: found.1)) c₁ := by
    refine repeats_untilClosing hg (by decide) (repeated_namedOrStar hg) (fun r r' c₂ hr => ?_) c₁
    obtain ⟨rest, isOpen⟩ := r
    obtain ⟨rest', isOpen'⟩ := r'
    obtain ⟨hrest, rfl⟩ := Prod.mk.inj hr
    have hempty : rest'.isEmpty = rest.isEmpty := by
      rw [← List.isEmpty_map (f := Expr.bare), hrest, List.isEmpty_map]
    refine Repeats.expect (even_close rfl) fun c₃ => ?_
    simp only [hempty]
    by_cases hone : (rest.isEmpty && !isOpen') = true
    · simp only [if_pos hone]
      cases hs : first.isStarred with
      | true => exact repeats_hold fun c₄ => repeats_pure (y := first) rfl
      | false =>
        rw [hs] at hstarred
        simp only [hstarred]
        exact repeats_pure hfirst
    · simp only [if_neg hone]
      exact Repeats.span fun s s' => repeats_pure (by simp [Expr.bare, bareAll_eq, hfirst, hrest])
  refine Repeats.nextIsFirst (fun _ => ?_) fun _ => ?_
  · have hsame : (!first'.isStarred && true) = (!first.isStarred && true) := by rw [hstarred]
    simp only [hsame]
    by_cases hplain : (!first.isStarred && true) = true
    · simp only [if_pos hplain]
      refine (repeated_generators hg (d + 1) c₁).andThen fun gs gs' c₂ hgs => ?_
      refine Repeats.expect (even_close rfl) fun c₃ => ?_
      exact Repeats.span fun s s' => repeats_pure (by simp [Expr.bare, bareGenerators_eq, hfirst, hgs])
    · simp only [if_neg hplain]
      exact hitems
  · simp only [Bool.and_false, Bool.false_eq_true, if_false]
    exact hitems

theorem repeats_afterBracket (d : Nat) (c : Cursor) :
    Repeats b 1 isEnd (Even (d + 1) d) Expr.bare (afterBracket g start) (afterBracket g' start')
      c := by
  refine Repeats.acceptOr (even_close rfl) (fun c₁ => ?_) fun _ => ?_
  · exact Repeats.span fun s s' => repeats_pure (by simp [Expr.bare])
  refine (repeated_namedOrStar hg (d + 1) c).andThen fun first first' c₁ hfirst => ?_
  refine Repeats.nextIsFirst (fun _ => ?_) fun _ => ?_
  · refine (repeated_generators hg (d + 1) c₁).andThen fun gs gs' c₂ hgs => ?_
    refine Repeats.expect (even_close rfl) fun c₃ => ?_
    exact Repeats.span fun s s' => repeats_pure (by simp [Expr.bare, bareGenerators_eq, hfirst, hgs])
  · refine repeats_untilClosing hg (by decide) (repeated_namedOrStar hg) (fun r r' c₂ hr => ?_) c₁
    have hrest := congrArg Prod.fst hr
    refine Repeats.expect (even_close rfl) fun c₃ => ?_
    exact Repeats.span fun s s' => repeats_pure (by
      simp only [erasedItems] at hrest
      simp [Expr.bare, bareAll_eq, hfirst, hrest])

theorem repeated_entry : Parser.Repeated b isEnd bareEntry (entry g) (entry g') := by
  intro d c
  refine Repeats.acceptOr (even_passed rfl) (fun c₁ => ?_) fun _ => ?_
  · refine ((hg.operand d c₁).bind fun value value' c₂ hv => ?_).weaken
    exact repeats_pure (by simp [bareEntry, hv])
  · refine (hg.test d c).andThen fun key key' c₁ hk => ?_
    refine Repeats.expect even_colon fun c₂ => ?_
    refine ((hg.test d c₂).bind fun value value' c₃ hv => ?_).weaken
    exact repeats_pure (by simp [bareEntry, hk, hv])

omit hg in
def behindFirst (g : Grammar) (start : Nat) (isBinding : Bool) (first : Expr) : Parser Expr := do
  if !first.isStarred && !isBinding && (← isSymbolNext .colon) then
    expectSymbol .colon
    let value ← g.test
    if ← nextIs isComprehension then
      let gs ← generators g
      expectSymbol .rightBrace
      return .dictComp (← spanFrom start) first value gs
    else
      let (rest, _) ← moreItems startsEntry (entry g) g.fuel
      expectSymbol .rightBrace
      return .dict (← spanFrom start) ((some first, value) :: rest)
  else if !first.isStarred && (← nextIs isComprehension) then
    let gs ← generators g
    expectSymbol .rightBrace
    return .setComp (← spanFrom start) first gs
  else
    let (rest, _) ← moreItems startsItem (namedOrStar g) g.fuel
    expectSymbol .rightBrace
    return .set (← spanFrom start) (first :: rest)

omit hg in
theorem afterBrace_eq (g : Grammar) (start : Nat) : afterBrace g start = (do
    if ← acceptSymbol .rightBrace then return .dict (← spanFrom start) []
    else if ← isSymbolNext .doubleStar then
      let (entries, _) ← items g.fuel startsEntry (entry g)
      expectSymbol .rightBrace
      return .dict (← spanFrom start) entries
    else
      let isBinding ← bindsName
      let first ← namedOrStar g
      behindFirst g start isBinding first) := rfl

/-- What a parenthesis holds behind its first expression is given again up to its end. -/
theorem repeats_behindFirst {first first' : Expr} (hfirst : first'.bare = first.bare)
    (isBinding : Bool) (d : Nat) (c : Cursor) :
    Repeats b 1 isEnd (Even (d + 1) d) Expr.bare (behindFirst g start isBinding first)
      (behindFirst g' start' isBinding first') c := by
  have hstarred := isStarred_of_bare hfirst
  have hset : Repeats b 1 isEnd (Even (d + 1) d) Expr.bare
      (do
        let (rest, _) ← moreItems startsItem (namedOrStar g) g.fuel
        expectSymbol .rightBrace
        return .set (← spanFrom start) (first :: rest))
      (do
        let (rest, _) ← moreItems startsItem (namedOrStar g') g'.fuel
        expectSymbol .rightBrace
        return .set (← spanFrom start') (first' :: rest)) c := by
    refine repeats_untilClosing hg (by decide) (repeated_namedOrStar hg) (fun r r' c₁ hr => ?_) c
    have hrest : r'.1.map Expr.bare = r.1.map Expr.bare := congrArg Prod.fst hr
    refine Repeats.expect (even_close rfl) fun c₂ => ?_
    exact Repeats.span fun s s' => repeats_pure (by simp [Expr.bare, bareAll_eq, hfirst, hrest])
  have hsetComp : Repeats b 1 isEnd (Even (d + 1) d) Expr.bare
      (do
        if !first.isStarred && (← nextIs isComprehension) then
          let gs ← generators g
          expectSymbol .rightBrace
          return .setComp (← spanFrom start) first gs
        else
          let (rest, _) ← moreItems startsItem (namedOrStar g) g.fuel
          expectSymbol .rightBrace
          return .set (← spanFrom start) (first :: rest))
      (do
        if !first'.isStarred && (← nextIs isComprehension) then
          let gs ← generators g'
          expectSymbol .rightBrace
          return .setComp (← spanFrom start') first' gs
        else
          let (rest, _) ← moreItems startsItem (namedOrStar g') g'.fuel
          expectSymbol .rightBrace
          return .set (← spanFrom start') (first' :: rest)) c := by
    rw [hstarred]
    refine Repeats.nextIsFirst (fun _ => ?_) fun _ => ?_
    · cases first.isStarred with
      | true => exact hset
      | false =>
        refine (repeated_generators hg (d + 1) c).andThen fun gs gs' c₁ hgs => ?_
        refine Repeats.expect (even_close rfl) fun c₂ => ?_
        exact Repeats.span fun s s' => repeats_pure (by
          simp [Expr.bare, bareGenerators_eq, hfirst, hgs])
    · rw [Bool.and_false]
      exact hset
  unfold behindFirst
  rw [hstarred]
  refine Repeats.isNextFirst (fun _ => ?_) fun _ => ?_
  · by_cases hentry : (!first.isStarred && !isBinding && true) = true
    · simp only [if_pos hentry]
      refine Repeats.expect even_colon fun c₁ => ?_
      refine (hg.test (d + 1) c₁).andThen fun value value' c₂ hv => ?_
      refine Repeats.nextIsFirst (fun _ => ?_) fun _ => ?_
      · refine (repeated_generators hg (d + 1) c₂).andThen fun gs gs' c₃ hgs => ?_
        refine Repeats.expect (even_close rfl) fun c₄ => ?_
        exact Repeats.span fun s s' => repeats_pure (by
          simp [Expr.bare, bareGenerators_eq, hfirst, hv, hgs])
      · refine repeats_untilClosing hg (by decide) (repeated_entry hg) (fun r r' c₃ hr => ?_) c₂
        have hrest : r'.1.map bareEntry = r.1.map bareEntry := congrArg Prod.fst hr
        refine Repeats.expect (even_close rfl) fun c₄ => ?_
        exact Repeats.span fun s s' => repeats_pure (by
          simp [Expr.bare, bareEntries_eq, bareEntry, hfirst, hv, hrest])
    · simp only [if_neg hentry]
      rw [hstarred] at hsetComp
      exact hsetComp
  · simp only [Bool.and_false, Bool.false_eq_true, if_false]
    rw [hstarred] at hsetComp
    exact hsetComp

theorem repeats_afterBrace (d : Nat) (c : Cursor) :
    Repeats b 1 isEnd (Even (d + 1) d) Expr.bare (afterBrace g start) (afterBrace g' start') c := by
  rw [afterBrace_eq, afterBrace_eq]
  refine Repeats.acceptOr (even_close rfl) (fun c₁ => ?_) fun _ => ?_
  · exact Repeats.span fun s s' => repeats_pure (by simp [Expr.bare])
  refine Repeats.isNextFirst (fun _ => ?_) fun _ => ?_
  · refine (repeats_items rfl (closing_all (by decide)) ((repeated_entry hg).closing (d + 1)) hg.fuel
      hg.fuel' c).andThen fun r r' c₁ hr => ?_
    have hentries : r'.1.map bareEntry = r.1.map bareEntry := congrArg Prod.fst hr
    refine Repeats.expect (even_close rfl) fun c₂ => ?_
    exact Repeats.span fun s s' => repeats_pure (by simp [Expr.bare, bareEntries_eq, hentries])
  refine Repeats.nameBefore rfl rfl (fun h => ?_) fun _ => ?_
  · refine (repeats_bindingOrStar hg h).andThen fun first first' c₁ hfirst => ?_
    exact repeats_behindFirst hg hfirst true d c₁
  · refine (repeated_namedOrStar hg (d + 1) c).andThen fun first first' c₁ hfirst => ?_
    exact repeats_behindFirst hg hfirst false d c₁

end Brackets

end Pagewright.Syntax.Expression
