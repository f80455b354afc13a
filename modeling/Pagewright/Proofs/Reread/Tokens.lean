import Pagewright.Proofs.Reread.Repeats

namespace Pagewright.Syntax.Parser

variable {α β γ δ ε : Type} {most most' least n b d lo mid hi : Nat} {stops : TokenKind → Bool}
  {W W₂ : List TokenKind → Prop} {erase : α → γ} {erase' : β → δ} {c : Cursor} {k : TokenKind}

/-- A look at what comes next. Where the rest of the rule takes `n` tokens or more, what is seen
again is one of `P`. -/
theorem Repeats.looking {q : Parser ε} {f f' : ε → Parser β} {R : ε → Prop}
    (hq : Post q c fun x c' => c' = c ∧ R x)
    (h : ∀ x, R x → ∃ (P : ε → Prop) (n : Nat), least ≤ n ∧ P x ∧
      (∀ x', P x' → Repeats most n stops W erase' (f x) (f' x') c) ∧
      ∀ k ks, (c.kind? = some k ∨ n = 0 ∧ stops k = true) → Gives q (k :: ks) P (k :: ks)) :
    Repeats most least stops W erase' (q >>= f) (q >>= f') c := by
  refine hq.bind fun x c' hx => ?_
  obtain ⟨rfl, hR⟩ := hx
  obtain ⟨P, n, hn, hP, hf, hgives⟩ := h x hR
  intro y c₁ hy hclear
  obtain ⟨hc, ts, hts, hlen, hW, -⟩ := hf x hP y c₁ hy hclear
  refine ⟨hc, ts, hts, by omega, hW, fun hload rest hrest => ?_⟩
  obtain ⟨k, ks, hks, hor⟩ := hrest.front hts hlen
  rw [hks]
  refine (hgives k ks hor).bind fun x' hx' => ?_
  obtain ⟨-, us, hus, -, -, hagain⟩ := hf x' hx' y c₁ hy hclear
  obtain rfl : ts = us := List.append_cancel_right (hts.tokens.symm.trans hus.tokens)
  rw [← hks]
  exact hagain hload rest hrest

theorem Repeats.here {f f' : Nat → Parser β}
    (h : ∀ start start', Repeats most least stops W erase' (f start) (f' start') c) :
    Repeats most least stops W erase' (Parser.here >>= f) (Parser.here >>= f') c := by
  refine Repeats.looking (R := fun _ => True) ?_ fun x _ => ?_
  · exact Post.next (Post.get (post_pure ⟨rfl, trivial⟩))
  · exact ⟨fun _ => True, least, Nat.le_refl _, trivial, fun x' _ => h x x', fun _ _ _ => gives_here⟩

theorem Repeats.span {start start' : Nat} {f f' : Span → Parser β}
    (h : ∀ s s', Repeats most least stops W erase' (f s) (f' s') c) :
    Repeats most least stops W erase' (spanFrom start >>= f) (spanFrom start' >>= f') c := by
  refine Post.span fun y c₁ hy hclear => ?_
  obtain ⟨hc, ts, hts, hlen, hW, -⟩ := h _ default y c₁ hy hclear
  refine ⟨hc, ts, hts, hlen, hW, fun hload rest hrest => gives_spanFrom.bind fun s' _ => ?_⟩
  obtain ⟨-, us, hus, -, -, hagain⟩ := h _ s' y c₁ hy hclear
  obtain rfl : ts = us := List.append_cancel_right (hts.tokens.symm.trans hus.tokens)
  exact hagain hload rest hrest

theorem post_kind : Post Parser.kind? c fun k? c' => c' = c ∧ c.kind? = k? :=
  Post.next (post_pure ⟨rfl, rfl⟩)

/-- The kind of a token that is taken is seen again. -/
theorem Repeats.kindFirst {f f' : Option TokenKind → Parser β}
    (h : ∀ k?, c.kind? = k? → Repeats most 1 stops W erase' (f k?) (f' k?) c) :
    Repeats most 1 stops W erase' (Parser.kind? >>= f) (Parser.kind? >>= f') c := by
  refine Repeats.looking post_kind fun k? hk => ?_
  refine ⟨(· = k?), 1, Nat.le_refl _, rfl, fun x' hx' => hx' ▸ h k? hk, fun k ks hor => ?_⟩
  refine gives_kind.mono fun x hx => ?_
  rw [hx, ← hk]
  exact (hor.resolve_right fun h => absurd h.1 (by decide)).symm

/-- The kind of the next token, where a rule stops at other kinds as it does at this one. -/
theorem Repeats.kind {f f' : Option TokenKind → Parser β}
    (h : ∀ k?, c.kind? = k? → Repeats most 1 stops W erase' (f k?) (f' k?) c ∨
      Repeats most 0 stops W erase' (f k?) (f' k?) c ∧
        ∀ k, stops k = true → f' (some k) = f' k?) :
    Repeats most 0 stops W erase' (Parser.kind? >>= f) (Parser.kind? >>= f') c := by
  refine Repeats.looking post_kind fun k? hk => ?_
  rcases h k? hk with h | ⟨h, hstops⟩
  · refine ⟨(· = k?), 1, Nat.zero_le _, rfl, fun x' hx' => hx' ▸ h, fun k ks hor => ?_⟩
    refine gives_kind.mono fun x hx => ?_
    rw [hx, ← hk]
    exact (hor.resolve_right fun h => absurd h.1 (by decide)).symm
  · refine ⟨fun x => f' x = f' k?, 0, Nat.zero_le _, rfl, fun x' hx' => ?_, fun k ks hor => ?_⟩
    · rwa [hx']
    · refine gives_kind.mono fun x hx => ?_
      rw [hx]
      rcases hor with hor | ⟨-, hor⟩
      · rw [← hk, hor]
      · exact hstops k hor

theorem post_nextIs {test : TokenKind → Bool} :
    Post (nextIs test) c fun b c' => c' = c ∧ c.kind?.any test = b :=
  Post.kind fun k? hk => post_pure ⟨rfl, by rw [hk]⟩

theorem gives_nextIs_again {test : TokenKind → Bool} {x : Bool} {ks : List TokenKind}
    (hx : c.kind?.any test = x) (hor : c.kind? = some k ∨ n = 0 ∧ stops k = true)
    (hstops : n = 0 → stops k = true → test k = x) :
    Gives (nextIs test) (k :: ks) (· = x) (k :: ks) := by
  refine gives_nextIs.mono fun b hb => ?_
  rw [hb]
  rcases hor with hor | ⟨hn, hor⟩
  · rw [← hx, hor]
    rfl
  · exact hstops hn hor

/-- A test of a token that is taken. -/
theorem Repeats.nextIsFirst {test : TokenKind → Bool} {f f' : Bool → Parser β}
    (ht : c.kind?.any test = true → Repeats most least stops W erase' (f true) (f' true) c)
    (hf : c.kind?.any test = false → Repeats most least stops W erase' (f false) (f' false) c)
    (hpos : 0 < least := by decide) :
    Repeats most least stops W erase' (nextIs test >>= f) (nextIs test >>= f') c := by
  refine Repeats.looking post_nextIs fun x hx => ?_
  have h : Repeats most least stops W erase' (f x) (f' x) c := by
    cases x with
    | true => exact ht hx
    | false => exact hf hx
  refine ⟨(· = x), least, Nat.le_refl _, rfl, fun x' hx' => hx' ▸ h, fun k ks hor => ?_⟩
  exact gives_nextIs_again hx hor fun h => absurd h (by omega)

/-- A test that does not matter. -/
theorem Repeats.nextIsEither {test : TokenKind → Bool} {f f' : Bool → Parser β}
    (h : ∀ x x', Repeats most least stops W erase' (f x) (f' x') c) :
    Repeats most least stops W erase' (nextIs test >>= f) (nextIs test >>= f') c := by
  refine Repeats.looking post_nextIs fun x _ => ?_
  refine ⟨fun _ => True, least, Nat.le_refl _, trivial, fun x' _ => h x x', fun k ks _ => ?_⟩
  exact gives_nextIs.mono fun _ _ => trivial

/-- A test that finds something to take. A rule stops only at tokens that do not pass the test. -/
theorem Repeats.nextIs {test : TokenKind → Bool} {f f' : Bool → Parser β}
    (hstops : ∀ k, stops k = true → test k = false)
    (ht : c.kind?.any test = true → Repeats most 1 stops W erase' (f true) (f' true) c)
    (hf : c.kind?.any test = false → Repeats most 0 stops W erase' (f false) (f' false) c) :
    Repeats most 0 stops W erase' (Parser.nextIs test >>= f) (Parser.nextIs test >>= f') c := by
  refine Repeats.looking post_nextIs fun x hx => ?_
  cases x with
  | true =>
    refine ⟨(· = true), 1, Nat.zero_le _, rfl, fun x' hx' => hx' ▸ ht hx, fun k ks hor => ?_⟩
    exact gives_nextIs_again hx hor fun h => absurd h (by decide)
  | false =>
    refine ⟨(· = false), 0, Nat.le_refl _, rfl, fun x' hx' => hx' ▸ hf hx, fun k ks hor => ?_⟩
    exact gives_nextIs_again hx hor fun _ => hstops k

theorem isNext_eq : isNext k = Parser.nextIs (· = k) := by
  unfold isNext Parser.nextIs
  congr
  funext k?
  cases k? <;> simp

theorem any_eq_kind? : c.kind?.any (· = k) = decide (c.kind? = some k) := by
  cases c.kind? <;> simp

theorem Repeats.isNextFirst {f f' : Bool → Parser β}
    (ht : c.kind? = some k → Repeats most least stops W erase' (f true) (f' true) c)
    (hf : c.kind? ≠ some k → Repeats most least stops W erase' (f false) (f' false) c)
    (hpos : 0 < least := by decide) :
    Repeats most least stops W erase' (isNext k >>= f) (isNext k >>= f') c := by
  rw [isNext_eq]
  refine Repeats.nextIsFirst (fun h => ht ?_) (fun h => hf ?_) hpos
  · simpa [any_eq_kind?] using h
  · simpa [any_eq_kind?] using h

theorem Repeats.isNextEither {f f' : Bool → Parser β}
    (h : ∀ x x', Repeats most least stops W erase' (f x) (f' x') c) :
    Repeats most least stops W erase' (isNext k >>= f) (isNext k >>= f') c := by
  rw [isNext_eq]
  exact Repeats.nextIsEither h

theorem Repeats.isNext {f f' : Bool → Parser β} (hstops : stops k = false)
    (ht : c.kind? = some k → Repeats most 1 stops W erase' (f true) (f' true) c)
    (hf : c.kind? ≠ some k → Repeats most 0 stops W erase' (f false) (f' false) c) :
    Repeats most 0 stops W erase' (Parser.isNext k >>= f) (Parser.isNext k >>= f') c := by
  rw [isNext_eq]
  refine Repeats.nextIs (fun k' hk' => ?_) (fun h => ht ?_) fun h => hf ?_
  · rw [decide_eq_false_iff_not]
    rintro rfl
    rw [hstops] at hk'
    cases hk'
  · simpa [any_eq_kind?] using h
  · simpa [any_eq_kind?] using h

section Tokens

/-- A token that a rule takes is taken again. -/
theorem repeats_taking {q : Parser ε} {erase : ε → γ} (hW : W [k])
    (hq : Post q c fun x c' => (∃ t, c.Takes [t] c' ∧ t.kind = k ∧ (c'.held = none → c.Clear c')) ∧
      ∀ ks, Gives q (k :: ks) (fun x' => erase x' = erase x) ks) :
    Repeats most 1 stops W erase q q c := by
  intro x c₁ hx hclear
  obtain ⟨⟨t, ht, rfl, hc⟩, hgives⟩ := hq x c₁ hx
  exact ⟨hc hclear, [t], ht, Nat.le_refl _, by simpa using hW, fun _ rest _ => by simpa using hgives rest⟩

theorem post_take_clear (hk : c.kind? = some k) : Post take c fun _ c' =>
    ∃ t, c.Takes [t] c' ∧ t.kind = k ∧ (c'.held = none → c.Clear c') := by
  obtain ⟨t, ht, rfl⟩ := kind?_eq_some hk
  intro x c' hx
  have htakes := post_take ht x c' hx
  refine ⟨t, htakes, rfl, fun _ => ?_⟩
  obtain ⟨tokens, ending, stop, held⟩ := c
  cases tokens with
  | nil => simp at ht
  | cons t' ts =>
    cases held with
    | some e => cases hx
    | none =>
      obtain ⟨-, rfl⟩ := Prod.mk.inj (Except.ok.inj hx)
      exact ⟨rfl, rfl⟩

theorem repeats_take (hW : W [k]) (hk : c.kind? = some k) :
    Repeats most 1 stops W placeless take take c :=
  repeats_taking hW ((post_take_clear hk).mono fun _ _ h => ⟨h, fun _ => gives_take.mono fun _ _ => rfl⟩)

theorem post_accept_clear : Post (accept k) c fun b c' =>
    b = true ∧ c.kind? = some k ∧ (∃ t, c.Takes [t] c' ∧ t.kind = k ∧ (c'.held = none → c.Clear c')) ∨
      b = false ∧ c.kind? ≠ some k ∧ c' = c := by
  refine Post.kind fun k? hk => ?_
  split
  · rename_i h
    have h := hk.trans h
    exact (post_take_clear h).bind fun _ c' ht => post_pure (.inl ⟨rfl, h, ht⟩)
  · rename_i h
    exact post_pure (.inr ⟨rfl, hk ▸ h, rfl⟩)

theorem repeats_expect (hW : W [k]) : Repeats most 1 stops W placeless (expect k) (expect k) c := by
  refine repeats_taking hW ?_
  refine post_accept_clear.bind fun b c' h => ?_
  rcases h with ⟨rfl, -, ht⟩ | ⟨rfl, -, -⟩
  · exact post_pure ⟨ht, fun _ => gives_expect.mono fun _ _ => rfl⟩
  · exact post_unexpected

/-- A name is given again. -/
theorem repeats_identifier : Repeats most 1 stops (Even d d) id identifier identifier c := by
  intro x c₁ hx hclear
  have hpost : Post identifier c fun x c' =>
      ∃ t, c.Takes [t] c' ∧ t.kind = .name x ∧ (c'.held = none → c.Clear c') := by
    refine Post.kind fun k? hk => ?_
    split
    · exact (post_take_clear hk).bind fun _ c' ht => post_pure ht
    · exact post_unexpected
  obtain ⟨t, ht, hkind, hc⟩ := hpost x c₁ hx
  refine ⟨hc hclear, [t], ht, Nat.le_refl _, by simpa [hkind] using even_passed rfl, fun _ rest _ => ?_⟩
  rw [List.map_singleton, hkind]
  exact gives_identifier

/-- A token is taken, or nothing is. -/
theorem Repeats.acceptShaped {f f' : Bool → Parser β}
    (ht : ∀ c₁, Repeats most' least stops W₂ erase' (f true) (f' true) c₁)
    (hf : c.kind? ≠ some k → Repeats most n stops W erase' (f false) (f' false) c)
    (hW : ∀ ks, W₂ ks → W (k :: ks)) (hmost : most ≤ most' + 1) (hn : n ≤ least + 1)
    (hstops : n = 0 → stops k = false) :
    Repeats most n stops W erase' (accept k >>= f) (accept k >>= f') c := by
  refine post_accept_clear.bind fun b c' h => ?_
  rcases h with ⟨rfl, -, t, ht', rfl, hc⟩ | ⟨rfl, hne, rfl⟩
  · intro y c₂ hy hclear
    obtain ⟨hc', ts, hts, hlen, hW₂, hagain⟩ := ht c' y c₂ hy hclear
    refine ⟨(hc hc'.held).trans hc', t :: ts, ht'.trans hts, ?_, hW _ hW₂, fun hload rest hrest => ?_⟩
    · rw [List.length_cons]
      omega
    · rw [List.map_cons, load_cons] at hload
      have hpos := t.kind.weight_pos
      refine gives_accept.bind fun b hb => ?_
      rw [hb]
      exact hagain (by omega) rest hrest
  · intro y c₂ hy hclear
    obtain ⟨hc', ts, hts, hlen, hW', hagain⟩ := hf hne y c₂ hy hclear
    refine ⟨hc', ts, hts, hlen, hW', fun hload rest hrest => ?_⟩
    obtain ⟨k', ks, hks, hor⟩ := hrest.front hts hlen
    have hk' : k' ≠ k := by
      rintro rfl
      rcases hor with hor | ⟨hn, hor⟩
      · exact hne hor
      · rw [hstops hn] at hor
        cases hor
    have hrun := hagain hload rest hrest
    rw [hks] at hrun ⊢
    refine (gives_accept_not hk').bind fun b hb => ?_
    rw [hb]
    exact hrun

theorem Repeats.accept {f f' : Bool → Parser β} (hk : Even lo mid [k]) (hstops : stops k = false)
    (ht : ∀ c₁, Repeats most 0 stops (Even mid hi) erase' (f true) (f' true) c₁)
    (hf : c.kind? ≠ some k → Repeats most 0 stops (Even lo hi) erase' (f false) (f' false) c) :
    Repeats most 0 stops (Even lo hi) erase' (Parser.accept k >>= f) (Parser.accept k >>= f') c :=
  Repeats.acceptShaped ht hf (fun _ h => hk.append h) (Nat.le_succ _) (Nat.zero_le _) fun _ => hstops

/-- A token is taken, or something else is. -/
theorem Repeats.acceptOr {f f' : Bool → Parser β} (hk : Even lo mid [k])
    (ht : ∀ c₁, Repeats most 0 stops (Even mid hi) erase' (f true) (f' true) c₁)
    (hf : c.kind? ≠ some k → Repeats most 1 stops (Even lo hi) erase' (f false) (f' false) c) :
    Repeats most 1 stops (Even lo hi) erase' (Parser.accept k >>= f) (Parser.accept k >>= f') c :=
  Repeats.acceptShaped ht hf (fun _ h => hk.append h) (Nat.le_succ _) (Nat.le_refl _)
    fun h => absurd h (by decide)

/-- The rules behind the first token have less to read. -/
theorem Repeats.acceptFirst {f f' : Bool → Parser β} (hk : Even lo mid [k])
    (ht : ∀ c₁, Repeats b 0 stops (Even mid hi) erase' (f true) (f' true) c₁)
    (hf : c.kind? ≠ some k → Repeats (b + 1) 1 stops (Even lo hi) erase' (f false) (f' false) c) :
    Repeats (b + 1) 1 stops (Even lo hi) erase' (Parser.accept k >>= f) (Parser.accept k >>= f') c :=
  Repeats.acceptShaped ht hf (fun _ h => hk.append h) (Nat.le_refl _) (Nat.le_refl _)
    fun h => absurd h (by decide)

theorem Repeats.expect {f f' : Unit → Parser β} (hk : Even lo mid [k])
    (h : ∀ c₁, Repeats most 0 stops (Even mid hi) erase' (f ()) (f' ()) c₁) :
    Repeats most 1 stops (Even lo hi) erase' (Parser.expect k >>= f) (Parser.expect k >>= f') c :=
  (repeats_expect hk).bind fun _ _ c₁ _ => h c₁

theorem Repeats.take {f f' : Unit → Parser β} (hk : c.kind? = some k) (hW : Even lo mid [k])
    (h : ∀ c₁, Repeats most 0 stops (Even mid hi) erase' (f ()) (f' ()) c₁) :
    Repeats most 1 stops (Even lo hi) erase' (Parser.take >>= f) (Parser.take >>= f') c :=
  (repeats_take hW hk).bind fun _ _ c₁ _ => h c₁

theorem Repeats.takeFirst {f f' : Unit → Parser β} (hk : c.kind? = some k) (hW : Even lo mid [k])
    (h : ∀ c₁, Repeats b 0 stops (Even mid hi) erase' (f ()) (f' ()) c₁) :
    Repeats (b + 1) 1 stops (Even lo hi) erase' (Parser.take >>= f) (Parser.take >>= f') c :=
  (repeats_take hW hk).then fun _ _ c₁ _ => h c₁

end Tokens

section Optional

variable {item item' : Parser α} {f f' : Option α → Parser β}

/-- An optional item before the rest of a rule, where a token starts one. -/
theorem Repeats.optional {test : TokenKind → Bool}
    (hstops : ∀ k, stops k = true → test k = false)
    (hitem : ∀ c, Repeats most 1 stops (Even lo lo) erase item item' c)
    (hf : ∀ x x' c₁, x'.map erase = x.map erase →
      Repeats most 0 stops (Even lo hi) erase' (f x) (f' x') c₁) :
    Repeats most 0 stops (Even lo hi) erase'
      (Parser.nextIs test >>= fun b => if b = true then some <$> item >>= f else pure none >>= f)
      (Parser.nextIs test >>= fun b => if b = true then some <$> item' >>= f' else pure none >>= f')
      c := by
  refine Repeats.nextIs hstops (fun _ => ?_) fun _ => ?_
  · have hsome : Repeats most 1 stops (Even lo lo) (Option.map erase) (some <$> item)
        (some <$> item') c := (hitem c).map fun x x' h => by simp [h]
    exact hsome.bind hf
  · exact hf none none c rfl

/-- An optional item before the rest of a rule, behind a token that is taken. -/
theorem Repeats.optionalAfter (hk : k.isPassed = true) (hstops : stops k = false)
    (hitem : ∀ c, Repeats most 1 stops (Even lo lo) erase item item' c)
    (hf : ∀ x x' c₁, x'.map erase = x.map erase →
      Repeats most 0 stops (Even lo hi) erase' (f x) (f' x') c₁) :
    Repeats most 0 stops (Even lo hi) erase'
      (Parser.accept k >>= fun b => if b = true then some <$> item >>= f else pure none >>= f)
      (Parser.accept k >>= fun b => if b = true then some <$> item' >>= f' else pure none >>= f')
      c := by
  refine Repeats.accept (even_passed hk) hstops (fun c₁ => ?_) fun _ => ?_
  · have hsome : Repeats most 1 stops (Even lo lo) (Option.map erase) (some <$> item)
        (some <$> item') c₁ := (hitem c₁).map fun x x' h => by simp [h]
    exact (hsome.bind hf).weaken
  · exact hf none none c rfl

end Optional

section Names

/-- A name and the symbol behind it. -/
theorem Repeats.nameAndSymbol {o : Operator} {f f' : Text → Parser β}
    (ho : (TokenKind.operator o).isPassed = true) (hsecond : c.second? = some (.operator o))
    (h : ∀ id c₁, Repeats most 0 stops (Even lo hi) erase' (f id) (f' id) c₁) :
    Repeats most 2 stops (Even lo hi) erase'
      (identifier >>= fun id => Parser.take >>= fun _ => f id)
      (identifier >>= fun id => Parser.take >>= fun _ => f' id) c := by
  intro y c₂ hy hclear
  obtain ⟨id, c₁, hid, htail⟩ : ∃ id c₁, identifier c = .ok (id, c₁) ∧
      (Parser.take >>= fun _ => f id) c₁ = .ok (y, c₂) := by
    simp only [Bind.bind, StateT.bind, Except.bind] at hy ⊢
    split at hy
    · cases hy
    · rename_i r hr
      exact ⟨r.1, r.2, hr, hy⟩
  obtain ⟨t, ht, hkind⟩ := post_name id c₁ hid
  have hnext : c₁.kind? = some (.operator o) := ht.kind?_of_second.trans hsecond
  have hsymbol (id' : Text) (hid' : id' = id) : Repeats most 1 stops (Even lo hi) erase'
      (Parser.take >>= fun _ => f id) (Parser.take >>= fun _ => f' id') c₁ := by
    subst hid'
    exact Repeats.take hnext (even_passed ho) (h id')
  obtain ⟨hc₁, us, hus, hulen, hshape, hagain⟩ := hsymbol id rfl y c₂ htail hclear
  have hidentifier : Repeats most 1 stops (Even lo lo) (fun x => x) identifier identifier c :=
    repeats_identifier
  obtain ⟨hc, ts, hts, htlen, hts', hname⟩ := hidentifier id c₁ hid hc₁.held
  obtain rfl : ts = [t] := List.append_cancel_right (hts.tokens.symm.trans ht.tokens)
  refine ⟨hc.trans hc₁, [t] ++ us, hts.trans hus, by simp; omega, by simpa using hts'.append hshape, ?_⟩
  intro hload rest hrest
  simp only [List.map_append, load_append] at hload
  rw [List.map_append, List.append_assoc]
  refine (hname (by omega) _ ?_).bind fun id' hid' => ?_
  · obtain ⟨k, ks, hks, hor⟩ := hrest.front hus (Nat.zero_le _)
    exact ⟨k, by rw [hks, List.head?_cons], hor.imp_right And.right⟩
  · obtain rfl : id' = id := hid'
    exact hagain (by omega) rest hrest

def areNameAnd (o : Operator) (first? second? : Option TokenKind) : Bool :=
  first?.any (fun k => k matches .name _) && second? = some (.operator o)

theorem areNameAnd_second {o : Operator} {first? second? : Option TokenKind}
    (h : areNameAnd o first? second? = true) : second? = some (.operator o) :=
  of_decide_eq_true (Bool.and_eq_true_iff.mp h).2

theorem post_nameBefore {o : Operator} {q : Parser Bool} (hq : q = (do
      match ← kind? with
      | some (.name _) => return (← second?) = some (.operator o)
      | _ => return false)) :
    Post q c fun b c' => c' = c ∧ areNameAnd o c.kind? c.second? = b := by
  rw [hq]
  refine Post.kind fun k? hk => ?_
  split
  · exact Post.second (post_pure ⟨rfl, by simp [areNameAnd, hk]⟩)
  · rename_i hne
    refine post_pure ⟨rfl, ?_⟩
    have hno : c.kind?.any (fun k => k matches .name _) = false := by
      rw [hk]
      cases k? with
      | none => rfl
      | some k =>
        cases k with
        | name id => exact absurd rfl (hne id)
        | _ => rfl
    rw [areNameAnd, hno, Bool.false_and]

theorem gives_nameBefore {o : Operator} {q : Parser Bool} (hq : q = (do
      match ← kind? with
      | some (.name _) => return (← second?) = some (.operator o)
      | _ => return false)) {ks : List TokenKind} :
    Gives q (k :: ks) (· = areNameAnd o (some k) ks.head?) (k :: ks) := by
  rw [hq]
  refine gives_kind.bind fun x hx => ?_
  rw [hx]
  cases k with
  | name id =>
    exact gives_second.bind fun o' ho' => gives_pure (by simp [areNameAnd, ho'])
  | _ => exact gives_pure rfl

/-- A look for a name and a symbol behind it, which are taken where they are found. -/
theorem Repeats.nameBefore {o : Operator} {q : Parser Bool} {f f' : Bool → Parser β} (hq : q = (do
      match ← kind? with
      | some (.name _) => return (← second?) = some (.operator o)
      | _ => return false)) (hstops : stops (.operator o) = false)
    (ht : areNameAnd o c.kind? c.second? = true →
      Repeats most 2 stops W erase' (f true) (f' true) c)
    (hf : areNameAnd o c.kind? c.second? = false →
      Repeats most least stops W erase' (f false) (f' false) c)
    (hpos : 0 < least := by decide) (hle : least ≤ 2 := by decide) :
    Repeats most least stops W erase' (q >>= f) (q >>= f') c := by
  refine (post_nameBefore hq).bind fun b c' hb => ?_
  obtain ⟨rfl, hb⟩ := hb
  cases b with
  | true =>
    intro y c₁ hy hclear
    obtain ⟨hc, ts, hts, hlen, hW, hrun⟩ := ht hb y c₁ hy hclear
    refine ⟨hc, ts, hts, by omega, hW, fun hload rest hrest => ?_⟩
    obtain ⟨t, u, us, rfl⟩ : ∃ t u us, ts = t :: u :: us := by
      match ts, hlen with
      | t :: u :: us, _ => exact ⟨t, u, us, rfl⟩
    refine (gives_nameBefore hq).bind fun x hx => ?_
    have hx' : x = true := hx.trans (by simpa [Cursor.kind?, Cursor.second?, hts.tokens] using hb)
    rw [hx']
    exact hrun hload rest hrest
  | false =>
    intro y c₁ hy hclear
    obtain ⟨hc, ts, hts, hlen, hW, hrun⟩ := hf hb y c₁ hy hclear
    refine ⟨hc, ts, hts, hlen, hW, fun hload rest hrest => ?_⟩
    obtain ⟨t, us, rfl⟩ := List.exists_cons_of_length_pos (Nat.lt_of_lt_of_le hpos hlen)
    refine (gives_nameBefore hq).bind fun x hx => ?_
    have hx' : x = false := by
      rw [hx]
      cases us with
      | nil =>
        obtain ⟨k, hk, hor⟩ := hrest
        have hk' : k = .operator o → c₁.kind? = some (.operator o) := by
          rintro rfl
          exact hor.resolve_right fun h => by rw [hstops] at h; cases h
        have hfirst : c'.kind? = some t.kind := by simp [Cursor.kind?, hts.tokens]
        have hnext : c'.second? = c₁.kind? := hts.kind?_of_second.symm
        change areNameAnd o (some t.kind) rest.head? = false
        rw [hk]
        rw [hfirst, hnext, areNameAnd, Bool.and_eq_false_iff, decide_eq_false_iff_not] at hb
        rw [areNameAnd, Bool.and_eq_false_iff, decide_eq_false_iff_not]
        exact hb.imp_right fun h he => h (hk' (Option.some.inj he))
      | cons u us => simpa [Cursor.kind?, Cursor.second?, hts.tokens] using hb
    rw [hx']
    exact hrun hload rest hrest

end Names

section Lists

/-- A test that lets an item follow where it takes something or the item does. -/
def Guards (stops : TokenKind → Bool) (d : Nat) (more : Parser Bool) : Prop :=
  ∀ {β δ : Type} {f f' : Bool → Parser β} {erase' : β → δ} {most : Nat} {c : Cursor},
    (∀ c₁, Repeats most 1 stops (Even d d) erase' (f true) (f' true) c₁) →
    Repeats most 0 stops (Even d d) erase' (f false) (f' false) c →
    Repeats most 0 stops (Even d d) erase' (more >>= f) (more >>= f') c

theorem guards_accept (hk : k.isPassed = true) (hstops : stops k = false) :
    Guards stops d (accept k) :=
  fun ht hf => Repeats.accept (even_passed hk) hstops (fun c₁ => (ht c₁).weaken) fun _ => hf

theorem guards_nextIs {test : TokenKind → Bool} (hstops : ∀ k, stops k = true → test k = false) :
    Guards stops d (nextIs test) :=
  fun ht hf => Repeats.nextIs hstops (fun _ => ht _) fun _ => hf

variable {item item' : Parser α}

/-- Items are given again as long as their guard looks at the next token only. -/
theorem repeats_manyWhile {more : Parser Bool} (hmore : Guards stops d more) {fuel fuel' : Nat}
    (hitem : ∀ c, Repeats most 1 stops (Even d d) erase item item' c) (hfuel : most ≤ fuel)
    (hfuel' : most ≤ fuel') (c : Cursor) :
    Repeats most 0 stops (Even d d) (List.map erase) (manyWhile more item fuel)
      (manyWhile more item' fuel') c := by
  induction fuel generalizing most fuel' c with
  | zero =>
    obtain rfl : most = 0 := by omega
    exact (repeats_pure (m := 0) (y := []) rfl).never
  | succ fuel ih =>
    have hstep (n : Nat) (hn : most ≤ n + 1) : Repeats most 0 stops (Even d d) (List.map erase)
        (manyWhile more item (fuel + 1)) (manyWhile more item' (n + 1)) c := by
      refine hmore (fun c₁ => ?_) (repeats_pure rfl)
      refine (hitem c₁).bindShaped (m := most - 1) (l := 0) (fun x x' c₂ hx => ?_)
        (fun _ _ => Even.append) (by omega)
        fun _ _ => id
      refine (ih (fun c => (hitem c).mono (by omega) (Nat.le_refl _)) (by omega)
        (by omega : most - 1 ≤ n) c₂).bind fun xs xs' c₃ hxs => ?_
      exact repeats_pure (by rw [List.map_cons, List.map_cons, hx, hxs])
    cases fuel' with
    | zero =>
      obtain rfl : most = 0 := by omega
      exact (hstep 0 (by omega)).never
    | succ n => exact hstep n hfuel'

def erasedItems (erase : α → γ) (found : List α × Bool) : List γ × Bool :=
  (found.1.map erase, found.2)

variable {starts : TokenKind → Bool} (hcomma : stops (.operator .comma) = false)
  (hstarts : ∀ k, stops k = true → starts k = false)

include hcomma hstarts

/-- Items behind commas are given again, with the comma that may be left over. -/
theorem repeats_moreItems {fuel fuel' : Nat}
    (hitem : ∀ c, Repeats most 1 stops (Even d d) erase item item' c) (hfuel : most ≤ fuel)
    (hfuel' : most ≤ fuel') (c : Cursor) :
    Repeats most 0 stops (Even d d) (erasedItems erase) (moreItems starts item fuel)
      (moreItems starts item' fuel') c := by
  induction fuel generalizing most fuel' c with
  | zero =>
    obtain rfl : most = 0 := by omega
    exact (repeats_pure (m := 0) (y := ([], false)) rfl).never
  | succ fuel ih =>
    have hstep (n : Nat) (hn : most ≤ n + 1) : Repeats most 0 stops (Even d d) (erasedItems erase)
        (moreItems starts item (fuel + 1)) (moreItems starts item' (n + 1)) c := by
      refine Repeats.accept (even_passed rfl) hcomma (fun c₁ => ?_) fun _ => repeats_pure rfl
      refine Repeats.nextIs hstarts (fun _ => ?_) fun _ => repeats_pure rfl
      refine (hitem c₁).bindShaped (m := most - 1) (l := 0) (fun x x' c₂ hx => ?_)
        (fun _ _ => Even.append) (by omega)
        fun _ _ => id
      refine (ih (fun c => (hitem c).mono (by omega) (Nat.le_refl _)) (by omega)
        (by omega : most - 1 ≤ n) c₂).bind fun r r' c₃ hr => ?_
      refine repeats_pure ?_
      simp only [erasedItems, Prod.mk.injEq, List.map_cons] at hr ⊢
      exact ⟨by rw [hx, hr.1], hr.2⟩
    cases fuel' with
    | zero =>
      obtain rfl : most = 0 := by omega
      exact (hstep 0 (by omega)).never
    | succ n => exact hstep n hfuel'

theorem repeats_items {fuel fuel' : Nat}
    (hitem : ∀ c, Repeats most 1 stops (Even d d) erase item item' c) (hfuel : most ≤ fuel)
    (hfuel' : most ≤ fuel') (c : Cursor) :
    Repeats most 1 stops (Even d d) (erasedItems erase) (items fuel starts item)
      (items fuel' starts item') c := by
  refine (hitem c).bind fun x x' c₁ hx => ?_
  refine (repeats_moreItems hcomma hstarts hitem hfuel hfuel' c₁).bind fun r r' c₂ hr => ?_
  refine repeats_pure ?_
  simp only [erasedItems, Prod.mk.injEq, List.map_cons] at hr ⊢
  exact ⟨by rw [hx, hr.1], hr.2⟩

end Lists

end Pagewright.Syntax.Parser
