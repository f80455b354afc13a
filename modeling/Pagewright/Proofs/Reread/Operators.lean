import Pagewright.Proofs.Reread.Atoms

namespace Pagewright.Syntax

namespace Parser

variable {β δ : Type} {most lo mid hi : Nat} {stops : TokenKind → Bool} {erase' : β → δ}
  {c : Cursor} {k : TokenKind}

/-- The rules behind a token that is taken have less to read. -/
theorem Repeats.acceptNext {f f' : Bool → Parser β} (hk : Even lo mid [k])
    (hstops : stops k = false)
    (ht : ∀ c₁, Repeats (most - 1) 0 stops (Even mid hi) erase' (f true) (f' true) c₁)
    (hf : c.kind? ≠ some k → Repeats most 0 stops (Even lo hi) erase' (f false) (f' false) c) :
    Repeats most 0 stops (Even lo hi) erase' (Parser.accept k >>= f) (Parser.accept k >>= f') c :=
  Repeats.acceptShaped ht hf (fun _ h => hk.append h) (by omega) (Nat.zero_le _) fun _ => hstops

theorem Repeats.takeNext {f f' : Unit → Parser β} (hk : c.kind? = some k) (hW : Even lo mid [k])
    (h : ∀ c₁, Repeats (most - 1) 0 stops (Even mid hi) erase' (f ()) (f' ()) c₁) :
    Repeats most 1 stops (Even lo hi) erase' (Parser.take >>= f) (Parser.take >>= f') c :=
  (repeats_take hW hk).bindShaped (fun _ _ c₁ _ => h c₁) (fun _ _ => .append) (by omega) fun _ _ => id

end Parser

namespace Expression

open Syntax.Parser

variable {b d most : Nat} {g g' : Grammar} {c : Cursor} {start start' : Nat}

section Rules

variable (hg : g.Repeated b g')

include hg

omit hg in
theorem constant?_passed {k : TokenKind} {v : Constant} (h : constant? k = some v) :
    k.isPassed = true := by
  cases k with
  | keyword w => cases w <;> first | rfl | cases h
  | operator o => cases o <;> first | rfl | cases h
  | _ => first | rfl | cases h

omit hg in
example : constant? (.keyword .noneWord) = some .none ∧
    TokenKind.isPassed (.keyword .noneWord) = true := by
  decide +kernel

theorem repeated_atom : Parser.Repeated (b + 1) isEnd Expr.bare (atom g) (atom g') := by
  intro d c
  refine Repeats.here fun start start' => Repeats.kindFirst fun k? hk => ?_
  split
  · exact repeated_literals hg d c
  · refine Repeats.takeFirst hk (even_passed rfl) fun c₁ => ?_
    exact Repeats.span fun s s' => repeats_pure (by simp [Expr.bare])
  · exact Repeats.takeFirst hk (even_open rfl) fun c₁ => (repeats_afterParen hg d c₁).weaken
  · exact Repeats.takeFirst hk (even_open rfl) fun c₁ => (repeats_afterBracket hg d c₁).weaken
  · exact Repeats.takeFirst hk (even_open rfl) fun c₁ => (repeats_afterBrace hg d c₁).weaken
  · rename_i k _ _ _ _ _
    cases hv : constant? k with
    | some v =>
      refine Repeats.takeFirst hk (even_passed (constant?_passed hv)) fun c₁ => ?_
      exact Repeats.span fun s s' => repeats_pure (by simp [Expr.bare])
    | none => exact repeats_unexpected
  · exact repeats_unexpected

/-- Trailers of equal operands are given again one after the other. -/
theorem repeats_trailers {fuel fuel' : Nat} {e e' : Expr} (hmost : most ≤ b) (hfuel : most ≤ fuel)
    (hfuel' : most ≤ fuel') (he : e'.bare = e.bare) (d : Nat) (c : Cursor) :
    Repeats most 0 isEnd (Even d d) Expr.bare (trailers g start fuel e)
      (trailers g' start' fuel' e') c := by
  induction fuel generalizing most fuel' e e' c with
  | zero =>
    obtain rfl : most = 0 := by omega
    exact (repeats_pure (m := 0) (y := e) rfl).never
  | succ fuel ih =>
    have hstep (n : Nat) (hn : most ≤ n + 1) : Repeats most 0 isEnd (Even d d) Expr.bare
        (trailers g start (fuel + 1) e) (trailers g' start' (n + 1) e') c := by
      refine Repeats.acceptNext (even_open rfl) rfl (fun c₁ => ?_) fun _ => ?_
      · refine ((repeats_arguments hg (d + 1) c₁).mono (by omega) (Nat.le_refl _)).andThen
          fun r r' c₂ hr => ?_
        obtain ⟨args, keywords⟩ := r
        obtain ⟨args', keywords'⟩ := r'
        obtain ⟨hargs, hkeywords⟩ := Prod.mk.inj hr
        refine Repeats.expect (even_close rfl) fun c₃ => Repeats.span fun s s' => ?_
        refine ih (by omega) (by omega) (by omega) ?_ c₃
        simp [Expr.bare, bareAll_eq, bareKeywords_eq, he, hargs, hkeywords]
      refine Repeats.acceptNext (even_open rfl) rfl (fun c₁ => ?_) fun _ => ?_
      · refine ((repeated_subscripts hg).lower (by omega) (d + 1) c₁).andThen
          fun index index' c₂ hindex => ?_
        refine Repeats.expect (even_close rfl) fun c₃ => Repeats.span fun s s' => ?_
        exact ih (by omega) (by omega) (by omega) (by simp [Expr.bare, he, hindex]) c₃
      refine Repeats.acceptNext (even_passed rfl) rfl (fun c₁ => ?_) fun _ => repeats_pure he
      refine (repeats_identifier.bind fun name name' c₂ hname => ?_).weaken
      refine Repeats.span fun s s' => ?_
      exact ih (by omega) (by omega) (by omega) (by simp [Expr.bare, he, show name' = name from hname])
        c₂
    cases fuel' with
    | zero =>
      obtain rfl : most = 0 := by omega
      exact (hstep 0 (by omega)).never
    | succ n => exact hstep n hfuel'

theorem repeated_primary : Parser.Repeated (b + 1) isEnd Expr.bare (primary g) (primary g') := by
  intro d c
  refine Repeats.here fun start start' => (repeated_atom hg d c).then fun e e' c₁ he => ?_
  exact repeats_trailers hg (Nat.le_refl b) hg.fuel hg.fuel' he d c₁

theorem repeated_awaited : Parser.Repeated (b + 1) isEnd Expr.bare (awaited g) (awaited g') := by
  intro d c
  refine Repeats.here fun start start' => ?_
  refine Repeats.acceptFirst (even_passed rfl) (fun c₁ => ?_) fun _ => repeated_primary hg d c
  refine (((repeated_primary hg).lower (Nat.le_succ b) d c₁).bind fun value value' c₂ hv => ?_).weaken
  exact Repeats.span fun s s' => repeats_pure (by simp [Expr.bare, hv])

theorem repeated_power : Parser.Repeated (b + 1) isEnd Expr.bare (power g) (power g') := by
  intro d c
  refine Repeats.here fun start start' => ?_
  refine (repeated_awaited hg d c).then fun base base' c₁ hbase => ?_
  refine Repeats.accept (even_passed rfl) rfl (fun c₂ => ?_) fun _ => repeats_pure hbase
  refine ((hg.factor d c₂).bind fun exponent exponent' c₃ he => ?_).weaken
  exact Repeats.span fun s s' => repeats_pure (by simp [Expr.bare, hbase, he])

omit hg in
theorem sign?_passed {k : TokenKind} {op : UnaryOp} (h : sign? k = some op) : k.isPassed = true := by
  cases k with
  | operator o => cases o <;> first | rfl | cases h
  | _ => cases h

theorem repeated_factor : Parser.Repeated (b + 1) isEnd Expr.bare (factor g) (factor g') := by
  intro d c
  refine Repeats.here fun start start' => Repeats.kindFirst fun k? hk => ?_
  cases hsign : k?.bind sign? with
  | some op =>
    obtain ⟨k, rfl, hop⟩ := Option.bind_eq_some_iff.mp hsign
    refine Repeats.takeFirst hk (even_passed (sign?_passed hop)) fun c₁ => ?_
    refine ((hg.factor d c₁).bind fun value value' c₂ hv => ?_).weaken
    exact Repeats.span fun s s' => repeats_pure (by simp [Expr.bare, hv])
  | none => exact repeated_power hg d c

omit hg in
/-- What the next token tells about an operator, where a rule stops at tokens that are none. -/
theorem tierOp?_passed {tier : List (Operator × BinaryOp)} {k : TokenKind} {op : BinaryOp}
    (htier : tier ∈ tiers) (h : tierOp? tier k = some op) : k.isPassed = true := by
  cases k with
  | operator o =>
    have hnone : ∀ o : Operator, (o.opens || o.closes || o == .colon) = true →
        ∀ tier ∈ tiers, tier.lookup o = none := by
      intro o
      cases o <;> decide
    have hplain : (o.opens || o.closes || o == .colon) = false := by
      by_contra hno
      have habsurd := hnone o (by simpa only [Bool.not_eq_false] using hno) tier htier
      rw [tierOp?, habsurd] at h
      cases h
    cases o <;> first | rfl | cases hplain
  | _ => cases h

omit hg in
theorem tierOp?_end {tier : List (Operator × BinaryOp)} (htier : tier ∈ tiers) (k : TokenKind)
    (hk : isEnd k = true) : tierOp? tier k = none := by
  have hall : (.operator .comma :: closers).all (fun k =>
      !tiers.any fun tier => (tierOp? tier k).isSome) = true := by decide
  simpa using List.any_eq_false.mp (end_all hall k hk) tier htier

omit hg in
example : ∀ tier ∈ tiers, tierOp? tier .newline = none := by
  decide +kernel

section Tiers

variable {tier : List (Operator × BinaryOp)} {tighter tighter' : Parser Expr} {fuel fuel' : Nat}
  (htier : tier ∈ tiers) (htighter : Parser.Repeated (b + 1) isEnd Expr.bare tighter tighter')

include htier htighter

omit hg in
/-- Operators of one tier join equal operands to equal trees. -/
theorem repeats_chain {e e' : Expr} (hmost : most ≤ b) (hfuel : most ≤ fuel)
    (hfuel' : most ≤ fuel') (he : e'.bare = e.bare) (d : Nat) (c : Cursor) :
    Repeats most 0 isEnd (Even d d) Expr.bare (chain tier tighter start fuel e)
      (chain tier tighter' start' fuel' e') c := by
  induction fuel generalizing most fuel' e e' c with
  | zero =>
    obtain rfl : most = 0 := by omega
    exact (repeats_pure (m := 0) (y := e) rfl).never
  | succ fuel ih =>
    have hstep (n : Nat) (hn : most ≤ n + 1) : Repeats most 0 isEnd (Even d d) Expr.bare
        (chain tier tighter start (fuel + 1) e) (chain tier tighter' start' (n + 1) e') c := by
      refine Repeats.kind fun k? hk => ?_
      cases hop : k?.bind (tierOp? tier) with
      | some op =>
        obtain ⟨k, rfl, hk'⟩ := Option.bind_eq_some_iff.mp hop
        refine .inl (Repeats.takeNext hk (even_passed (tierOp?_passed htier hk')) fun c₁ => ?_)
        refine ((htighter.lower (by omega) d c₁).bind fun right right' c₂ hright => ?_).weaken
        refine Repeats.span fun s s' => ?_
        exact ih (by omega) (by omega) (by omega) (by simp [Expr.bare, he, hright]) c₂
      | none =>
        refine .inr ⟨repeats_pure he, fun k hend => ?_⟩
        simp only [Option.bind_some, tierOp?_end htier k hend]
    cases fuel' with
    | zero =>
      obtain rfl : most = 0 := by omega
      exact (hstep 0 (by omega)).never
    | succ n => exact hstep n hfuel'

omit hg in
theorem repeated_tierOf (hfuel : b ≤ fuel) (hfuel' : b ≤ fuel') :
    Parser.Repeated (b + 1) isEnd Expr.bare (tierOf fuel tier tighter) (tierOf fuel' tier tighter') := by
  intro d c
  refine Repeats.here fun start start' => (htighter d c).then fun e e' c₁ he => ?_
  exact repeats_chain htier htighter (Nat.le_refl b) hfuel hfuel' he d c₁

end Tiers

theorem repeated_operand : Parser.Repeated (b + 1) isEnd Expr.bare (operand g) (operand g') := by
  have hall (all : List (List (Operator × BinaryOp))) (hsub : ∀ tier ∈ all, tier ∈ tiers) :
      Parser.Repeated (b + 1) isEnd Expr.bare (all.foldr (tierOf g.fuel) (factor g))
        (all.foldr (tierOf g'.fuel) (factor g')) := by
    induction all with
    | nil => exact repeated_factor hg
    | cons tier all ih =>
      exact repeated_tierOf (hsub tier (by simp)) (ih fun x hx => hsub x (by simp [hx])) hg.fuel
        hg.fuel'
  exact hall tiers fun _ h => h

omit hg in
/-- A look for the sign of a comparison, behind which an operand follows. -/
theorem Repeats.compareOp {β δ : Type} {erase' : β → δ} {f f' : Option CompareOp → Parser β}
    (ht : ∀ op c₁, Repeats most 1 isEnd (Even d d) erase' (f (some op)) (f' (some op)) c₁)
    (hf : Repeats most 0 isEnd (Even d d) erase' (f none) (f' none) c) :
    Repeats most 0 isEnd (Even d d) erase' (Expression.compareOp >>= f)
      (Expression.compareOp >>= f') c := by
  unfold Expression.compareOp
  simp only [bind_assoc]
  refine Repeats.kind fun k? hk => ?_
  have htake {k : TokenKind} (hk : c.kind? = some k) (hpassed : k.isPassed = true)
      {h h' : Unit → Parser β} (hh : ∀ c₁, Repeats most 0 isEnd (Even d d) erase' (h ()) (h' ()) c₁) :
      Repeats most 1 isEnd (Even d d) erase' (Parser.take >>= h) (Parser.take >>= h') c :=
    Repeats.take hk (even_passed hpassed) hh
  split
  all_goals try simp only [bind_assoc, pure_bind]
  · exact .inl (htake hk rfl fun c₁ => (ht _ c₁).weaken)
  · exact .inl (htake hk rfl fun c₁ => (ht _ c₁).weaken)
  · exact .inl (htake hk rfl fun c₁ => (ht _ c₁).weaken)
  · exact .inl (htake hk rfl fun c₁ => (ht _ c₁).weaken)
  · exact .inl (htake hk rfl fun c₁ => (ht _ c₁).weaken)
  · exact .inl (htake hk rfl fun c₁ => (ht _ c₁).weaken)
  · exact .inl (htake hk rfl fun c₁ => (ht _ c₁).weaken)
  · refine .inl (htake hk rfl fun c₁ => ?_)
    refine Repeats.accept (even_passed rfl) rfl (fun c₂ => ?_) fun _ => ?_
    · exact (ht _ c₂).weaken
    · exact (ht _ c₁).weaken
  · refine .inl (htake hk rfl fun c₁ => ?_)
    exact (Repeats.expect (even_passed rfl) fun c₂ => (ht _ c₂).weaken).weaken
  · refine .inr ⟨hf, fun k hend => ?_⟩
    have hk : k ∈ .operator .comma :: closers := by simpa [isEnd] using hend
    simp only [closers, List.mem_cons, List.not_mem_nil, or_false] at hk
    rcases hk with rfl | rfl | rfl | rfl | rfl <;> rfl

/-- A comparison up to places. -/
theorem repeats_comparisons {fuel fuel' : Nat} (hmost : most ≤ b) (hfuel : most ≤ fuel)
    (hfuel' : most ≤ fuel') (d : Nat) (c : Cursor) :
    Repeats most 0 isEnd (Even d d) (List.map bareComparison) (comparisons g fuel)
      (comparisons g' fuel') c := by
  induction fuel generalizing most fuel' c with
  | zero =>
    obtain rfl : most = 0 := by omega
    exact (repeats_pure (m := 0) (y := []) rfl).never
  | succ fuel ih =>
    have hstep (n : Nat) (hn : most ≤ n + 1) :
        Repeats most 0 isEnd (Even d d) (List.map bareComparison) (comparisons g (fuel + 1))
          (comparisons g' (n + 1)) c := by
      refine Repeats.compareOp (fun op c₁ => ?_) (repeats_pure rfl)
      refine ((repeated_operand hg).lower (by omega) d c₁).bindShaped (m := most - 1)
        (l := 0) (fun right right' c₂ hright => ?_) (fun _ _ => Even.append) (by omega)
        fun _ _ => id
      refine (ih (by omega) (by omega) (by omega : most - 1 ≤ n) c₂).bind fun rs rs' c₃ hrs => ?_
      exact repeats_pure (by simp [bareComparison, hright, hrs])
    cases fuel' with
    | zero =>
      obtain rfl : most = 0 := by omega
      exact (hstep 0 (by omega)).never
    | succ n => exact hstep n hfuel'

/-- Comparisons are given again, with all operands of a chain. -/
theorem repeated_comparison :
    Parser.Repeated (b + 1) isEnd Expr.bare (comparison g) (comparison g') := by
  intro d c
  refine Repeats.here fun start start' => (repeated_operand hg d c).then fun left left' c₁ hleft => ?_
  refine (repeats_comparisons hg (Nat.le_refl b) hg.fuel hg.fuel' d c₁).bind fun rs rs' c₂ hrs => ?_
  cases rs with
  | nil =>
    obtain rfl : rs' = [] := by simpa using hrs
    exact repeats_pure hleft
  | cons r rs =>
    obtain ⟨r', later, rfl, -, -⟩ := List.map_eq_cons_iff.mp hrs
    refine Repeats.span fun s s' => repeats_pure ?_
    simp only [Expr.bare, bareComparisons_eq, hleft, hrs]

theorem repeated_negation : Parser.Repeated (b + 1) isEnd Expr.bare (negation g) (negation g') := by
  intro d c
  refine Repeats.here fun start start' => ?_
  refine Repeats.acceptFirst (even_passed rfl) (fun c₁ => ?_) fun _ => repeated_comparison hg d c
  refine ((hg.negation d c₁).bind fun value value' c₂ hv => ?_).weaken
  exact Repeats.span fun s s' => repeats_pure (by simp [Expr.bare, hv])

omit hg in
/-- Operands joined by one word are given again if each of them is. -/
theorem repeated_joinedBy {fuel fuel' : Nat} {word : Keyword} {op : BoolOp} {item item' : Parser Expr}
    (hword : (TokenKind.keyword word).isPassed = true)
    (hitem : Parser.Repeated (b + 1) isEnd Expr.bare item item') (hfuel : b ≤ fuel)
    (hfuel' : b ≤ fuel') : Parser.Repeated (b + 1) isEnd Expr.bare (joinedBy fuel word op item)
      (joinedBy fuel' word op item') := by
  intro d c
  refine Repeats.here fun start start' => (hitem d c).then fun first first' c₁ hfirst => ?_
  refine (repeats_manyWhile (guards_accept hword (by simp [isEnd, closers]))
    (hitem.lower (Nat.le_succ b) d) hfuel hfuel' c₁).bind fun rest rest' c₂ hrest => ?_
  cases rest with
  | nil =>
    obtain rfl : rest' = [] := by simpa using hrest
    exact repeats_pure hfirst
  | cons e es =>
    obtain ⟨e', es', rfl, -, -⟩ := List.map_eq_cons_iff.mp hrest
    refine Repeats.span fun s s' => repeats_pure ?_
    simp only [Expr.bare, bareAll_eq, List.map_cons, hfirst] at hrest ⊢
    rw [hrest]

theorem repeated_conjunction :
    Parser.Repeated (b + 1) isEnd Expr.bare (conjunction g) (conjunction g') :=
  repeated_joinedBy rfl (repeated_negation hg) hg.fuel hg.fuel'

theorem repeated_disjunction :
    Parser.Repeated (b + 1) isEnd Expr.bare (disjunction g) (disjunction g') :=
  repeated_joinedBy rfl (repeated_conjunction hg) hg.fuel hg.fuel'

end Rules

end Expression
end Pagewright.Syntax
