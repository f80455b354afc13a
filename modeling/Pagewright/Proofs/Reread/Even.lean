import Pagewright.Proofs.Lexing.Softening

namespace Pagewright.Syntax

/-- The number of open brackets behind a token; none where it closes one that was not opened. -/
def TokenKind.depthBehind? (depth : Nat) : TokenKind → Option Nat
  | .operator o =>
    if o.opens then some (depth + 1)
    else if o.closes then (if depth = 0 then none else some (depth - 1))
    else some depth
  | _ => some depth

def heads (ks : List TokenKind) (first pendingLambda : Bool) (depth : Int) : Bool :=
  headsBlock (ks.map TokenKind.token) first pendingLambda depth

/-- Tokens between two depths that close no bracket from before them. Outside brackets the search
for a colon has found one behind them or waits for no `lambda` that it did not wait for before;
inside brackets they change nothing. -/
structure Even (lo hi : Nat) (ks : List TokenKind) : Prop where
  depth : ks.foldlM TokenKind.depthBehind? lo = some hi
  calm : ∀ first pendingLambda, (∀ later, heads (ks ++ later) first pendingLambda lo = true) ∨
    ∃ still : Bool, (still = true → pendingLambda = true) ∧
      ∀ later, heads (ks ++ later) first pendingLambda lo =
        heads later (first && ks.isEmpty) still hi
  inside : ∀ (outer : Nat) first pendingLambda later,
    heads (ks ++ later) first pendingLambda (lo + outer + 1 : Nat) =
      heads later (first && ks.isEmpty) pendingLambda (hi + outer + 1 : Nat)

section Even

variable {lo mid hi d : Nat} {ks ks' later : List TokenKind} {k : TokenKind} {first p : Bool}

theorem even_nil : Even d d [] :=
  ⟨rfl, fun first p => .inr ⟨p, id, by simp⟩, by simp⟩

/-- Matching tokens behind matching tokens match together. -/
theorem Even.append (h : Even lo mid ks) (h' : Even mid hi ks') : Even lo hi (ks ++ ks') := by
  have hempty : (ks ++ ks').isEmpty = (ks.isEmpty && ks'.isEmpty) := by cases ks <;> simp
  refine ⟨?_, fun first p => ?_, fun outer first p later => ?_⟩
  · rw [List.foldlM_append, h.depth]
    exact h'.depth
  · simp only [List.append_assoc, hempty, ← Bool.and_assoc]
    rcases h.calm first p with hfound | ⟨still, hstill, hsame⟩
    · exact .inl fun later => hfound _
    · rcases h'.calm (first && ks.isEmpty) still with hfound | ⟨still', hstill', hsame'⟩
      · exact .inl fun later => by rw [hsame, hfound]
      · exact .inr ⟨still', fun h => hstill (hstill' h), fun later => by rw [hsame, hsame']⟩
  · rw [List.append_assoc, h.inside, h'.inside, hempty, Bool.and_assoc]

theorem depthBehind?_add (h : k.depthBehind? lo = some hi) (outer : Nat) :
    k.depthBehind? (lo + outer) = some (hi + outer) := by
  cases k with
  | operator o =>
    simp only [TokenKind.depthBehind?] at h ⊢
    split at h
    · simp_all; omega
    · split at h
      · split at h
        · cases h
        · simp_all; omega
      · simp_all
  | _ =>
    obtain rfl := Option.some.inj h
    rfl

def TokenKind.isPassed : TokenKind → Bool
  | .newline | .keyword .lambdaWord | .operator .colon => false
  | .operator o => !o.opens && !o.closes
  | _ => true

theorem heads_passed (h : k.isPassed = true) (depth : Int) :
    heads (k :: later) first p depth = heads later false p depth := by
  unfold heads
  simp only [List.map_cons, headsBlock, TokenKind.token]
  cases k with
  | keyword w => cases w <;> first | rfl | cases h
  | operator o =>
    have hplain : o.opens = false ∧ o.closes = false := by
      cases o <;> first | exact ⟨rfl, rfl⟩ | cases h
    cases o <;> first | cases h; done | simp [hplain]
  | newline => cases h
  | _ => rfl

theorem even_passed (h : k.isPassed = true) : Even d d [k] := by
  refine ⟨?_, fun first p => .inr ⟨p, id, fun later => ?_⟩, fun outer first p later => ?_⟩
  · have hd : k.depthBehind? d = some d := by
      cases k with
      | operator o => cases o <;> first | rfl | cases h
      | _ => rfl
    simp [hd]
  · simpa using heads_passed h d
  · simpa using heads_passed h _

theorem heads_colon_inside (depth : Nat) :
    heads (.operator .colon :: later) first p (depth + 1 : Nat) =
      heads later false p (depth + 1 : Nat) := by
  have hne : ((depth + 1 : Nat) : Int) ≠ 0 := by omega
  simp only [heads, List.map_cons, headsBlock, TokenKind.token, hne, if_false]

theorem even_colon : Even d d [.operator .colon] := by
  refine ⟨rfl, fun first p => ?_, fun outer first p later => ?_⟩
  · cases d with
    | zero =>
      cases p with
      | true => exact .inr ⟨false, by simp, fun later => by simp [heads, headsBlock, TokenKind.token]⟩
      | false =>
        cases first with
        | true => exact .inr ⟨false, id, fun later => by simp [heads, headsBlock, TokenKind.token]⟩
        | false => exact .inl fun later => by simp [heads, headsBlock, TokenKind.token]
    | succ d => exact .inr ⟨p, id, fun later => by simpa using heads_colon_inside d⟩
  · simpa using heads_colon_inside (d + outer)

theorem heads_bracket {o : Operator} (h : o.opens = true ∨ o.closes = true) (depth : Int) :
    heads (.operator o :: later) first p depth =
      heads later false p (if o.opens then depth + 1 else depth - 1) := by
  unfold heads
  simp only [List.map_cons, headsBlock, TokenKind.token]
  cases o <;> first | rfl | simp [Operator.opens, Operator.closes] at h

theorem even_open {o : Operator} (h : o.opens = true) : Even d (d + 1) [.operator o] := by
  have hone (n : Nat) (first p : Bool) (later : List TokenKind) :
      heads ([.operator o] ++ later) first p n = heads later (first && false) p (n + 1 : Nat) := by
    rw [List.singleton_append, heads_bracket (.inl h), if_pos h, Bool.and_false]
    rfl
  refine ⟨by simp [TokenKind.depthBehind?, h], fun first p => .inr ⟨p, id, hone d first p⟩, ?_⟩
  intro outer first p later
  rw [hone, show d + outer + 1 + 1 = d + 1 + outer + 1 by omega]
  rfl

/-- A closing bracket matches the one that is open. -/
theorem even_close {o : Operator} (h : o.closes = true) : Even (d + 1) d [.operator o] := by
  have hopen : o.opens = false := by cases o <;> first | rfl | cases h
  have hone (n : Nat) (first p : Bool) (later : List TokenKind) :
      heads ([.operator o] ++ later) first p (n + 1 : Nat) = heads later (first && false) p n := by
    rw [List.singleton_append, heads_bracket (.inr h), hopen, Bool.and_false]
    simp
  refine ⟨by simp [TokenKind.depthBehind?, h, hopen], fun first p => .inr ⟨p, id, hone d first p⟩, ?_⟩
  intro outer first p later
  rw [show d + 1 + outer + 1 = d + outer + 1 + 1 by omega, hone]
  rfl

theorem heads_lambda (depth : Int) : heads (.keyword .lambdaWord :: later) first p depth =
    heads later false (p || decide (depth = 0)) depth := rfl

theorem heads_colon_waiting : heads (.operator .colon :: later) first true 0 =
    heads later false false 0 := by
  simp [heads, headsBlock, TokenKind.token]

/-- Behind the colon of a `lambda` the search waits for no `lambda`. -/
theorem calm_lambda {params body : List TokenKind} (hparams : Even 0 0 params)
    (hbody : Even 0 0 body) :
    (∀ later, heads (params ++ .operator .colon :: body ++ later) false true 0 = true) ∨
      ∀ later, heads (params ++ .operator .colon :: body ++ later) false true 0 =
        heads later false false 0 := by
  rcases hparams.calm false true with hfound | ⟨still, -, hsame⟩
  · exact .inl fun later => by simpa using hfound (.operator .colon :: body ++ later)
  · replace hsame (later : List TokenKind) : heads (params ++ later) false true 0 =
        heads later false still 0 := by simpa using hsame later
    simp only [List.append_assoc, List.cons_append, hsame]
    cases still with
    | false => exact .inl fun later => by simp [heads, headsBlock, TokenKind.token]
    | true =>
      simp only [heads_colon_waiting]
      rcases hbody.calm false false with hfound | ⟨still, hstill, hsame⟩
      · exact .inl hfound
      · obtain rfl : still = false := by simpa using hstill
        exact .inr fun later => by simpa using hsame later

/-- A `lambda` with its parameters and its body. -/
theorem Even.lambda {params body : List TokenKind} (hparams : Even d d params)
    (hbody : Even d d body) :
    Even d d (.keyword .lambdaWord :: (params ++ .operator .colon :: body)) := by
  have hall : Even d d (params ++ .operator .colon :: body) :=
    hparams.append (even_colon.append hbody)
  refine ⟨?_, fun first p => ?_, fun outer first p later => ?_⟩
  · have hd : (TokenKind.keyword .lambdaWord).depthBehind? d = some d := rfl
    rw [List.foldlM_cons, hd]
    exact hall.depth
  · simp only [List.cons_append, heads_lambda, List.isEmpty_cons, Bool.and_false]
    cases d with
    | zero =>
      simp only [Int.ofNat_zero, decide_true, Bool.or_true]
      rcases calm_lambda hparams hbody with hfound | hsame
      · exact .inl hfound
      · exact .inr ⟨false, by simp, hsame⟩
    | succ d =>
      have hne : ((d + 1 : Nat) : Int) ≠ 0 := by omega
      simp only [hne, decide_false, Bool.or_false]
      rcases hall.calm false p with hfound | ⟨still, hstill, hsame⟩
      · exact .inl hfound
      · exact .inr ⟨still, hstill, fun later => by simpa using hsame later⟩
  · have hne : ((d + outer + 1 : Nat) : Int) ≠ 0 := by omega
    simp only [List.cons_append, heads_lambda, hne, decide_false, Bool.or_false, List.isEmpty_cons,
      Bool.and_false]
    simpa using hall.inside outer false p later

end Even

end Pagewright.Syntax
