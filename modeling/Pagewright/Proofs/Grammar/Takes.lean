import Pagewright.Proofs.Lexing.Written
import Pagewright.Syntax.Cursor

namespace Pagewright.Syntax

namespace Cursor

def here (c : Cursor) : Nat :=
  (c.tokens.head?.map Token.start).getD c.stop

def kind? (c : Cursor) : Option TokenKind :=
  c.tokens.head?.map Token.kind

def second? (c : Cursor) : Option TokenKind :=
  (c.tokens.drop 1).head?.map Token.kind

/-- Tokens that are taken between two cursors. -/
structure Takes (c : Cursor) (ts : List Token) (c' : Cursor) : Prop where
  tokens : c.tokens = ts ++ c'.tokens
  stop : c'.stop = (ts.getLast?.map Token.stop).getD c.stop

theorem Takes.refl (c : Cursor) : c.Takes [] c :=
  ⟨rfl, rfl⟩

theorem Takes.trans {c c' c'' : Cursor} {ts ts' : List Token} (h : c.Takes ts c')
    (h' : c'.Takes ts' c'') : c.Takes (ts ++ ts') c'' := by
  constructor
  · rw [h.tokens, h'.tokens, List.append_assoc]
  · rw [h'.stop, h.stop]
    cases hl : ts'.getLast? with
    | none =>
      rw [List.getLast?_eq_none_iff.mp hl]
      simp
    | some t => simp [List.getLast?_append, hl]

/-- The words that are taken between two cursors, some of them or none. -/
def Reaches (c c' : Cursor) : Prop :=
  ∃ ts, c.Takes ts c' ∧ ∀ t ∈ ts, t.kind.isLayout = false

def Passes (c c' : Cursor) : Prop :=
  ∃ ts, c.Takes ts c' ∧ ts ≠ [] ∧ ∀ t ∈ ts, t.kind.isLayout = false

theorem Reaches.refl (c : Cursor) : c.Reaches c :=
  ⟨[], .refl c, by simp⟩

theorem Passes.reaches {c c' : Cursor} (h : c.Passes c') : c.Reaches c' := by
  obtain ⟨ts, hts, -, hwords⟩ := h
  exact ⟨ts, hts, hwords⟩

theorem Reaches.trans {c c' c'' : Cursor} (h : c.Reaches c') (h' : c'.Reaches c'') :
    c.Reaches c'' := by
  obtain ⟨ts, hts, hw⟩ := h
  obtain ⟨ts', hts', hw'⟩ := h'
  refine ⟨ts ++ ts', hts.trans hts', fun t ht => ?_⟩
  exact (List.mem_append.mp ht).elim (hw t) (hw' t)

theorem Passes.trans {c c' c'' : Cursor} (h : c.Passes c') (h' : c'.Reaches c'') :
    c.Passes c'' := by
  obtain ⟨ts, hts, hne, hw⟩ := h
  obtain ⟨ts', hts', hw'⟩ := h'
  refine ⟨ts ++ ts', hts.trans hts', by simp [hne], fun t ht => ?_⟩
  exact (List.mem_append.mp ht).elim (hw t) (hw' t)

theorem Reaches.passes {c c' c'' : Cursor} (h : c.Reaches c') (h' : c'.Passes c'') :
    c.Passes c'' := by
  obtain ⟨ts, hts, hw⟩ := h
  obtain ⟨ts', hts', hne, hw'⟩ := h'
  refine ⟨ts ++ ts', hts.trans hts', by simp [hne], fun t ht => ?_⟩
  exact (List.mem_append.mp ht).elim (hw t) (hw' t)

theorem Takes.kind?_of_second {c c' : Cursor} {t : Token} (h : c.Takes [t] c') :
    c'.kind? = c.second? := by
  simp [kind?, second?, h.tokens]

theorem Takes.reaches_nil {c c' : Cursor} (h : c.Takes [] c') : c.Reaches c' :=
  ⟨[], h, by simp⟩

theorem Takes.passes {c c' : Cursor} {t : Token} (h : c.Takes [t] c')
    (ht : t.kind.isLayout = false) : c.Passes c' :=
  ⟨[t], h, by simp, by simpa using ht⟩

end Cursor

namespace Parser

variable {α β : Type}

/-- Whatever a rule gives from a cursor on, and the cursor after it, have a property. -/
def Post (p : Parser α) (c : Cursor) (Q : α → Cursor → Prop) : Prop :=
  ∀ x c', p c = .ok (x, c') → Q x c'

variable {p : Parser α} {f : α → Parser β} {c : Cursor} {P : α → Cursor → Prop}
  {Q : β → Cursor → Prop}

theorem Post.mono {P' : α → Cursor → Prop} (h : Post p c P) (hP : ∀ x c', P x c' → P' x c') :
    Post p c P' :=
  fun x c' hx => hP x c' (h x c' hx)

theorem Post.bind (h : Post p c P) (hf : ∀ x c', P x c' → Post (f x) c' Q) :
    Post (p >>= f) c Q := by
  intro y c'' hy
  simp only [Bind.bind, StateT.bind, Except.bind] at hy
  split at hy
  · cases hy
  · rename_i r hr
    exact hf r.1 r.2 (h r.1 r.2 hr) y c'' hy

theorem Post.and {P' : α → Cursor → Prop} (h : Post p c P) (h' : Post p c P') :
    Post p c fun x c' => P x c' ∧ P' x c' :=
  fun x c' hx => ⟨h x c' hx, h' x c' hx⟩

/-- What a first rule gives does not matter. -/
theorem Post.any (h : ∀ x c', Post (f x) c' Q) : Post (p >>= f) c Q :=
  Post.bind (P := fun _ _ => True) (fun _ _ _ => trivial) fun x c' _ => h x c'

theorem post_pure {x : α} (h : P x c) : Post (pure x) c P := by
  intro y c' hy
  obtain ⟨rfl, rfl⟩ := Prod.mk.inj (Except.ok.inj hy)
  exact h

theorem Post.pure_bind {x : α} (h : Post (f x) c Q) : Post (pure x >>= f) c Q :=
  h

theorem Post.map {g : α → β} (h : Post p c fun x c' => Q (g x) c') : Post (g <$> p) c Q := by
  intro y c' hy
  simp only [Functor.map, StateT.map, Bind.bind, Except.bind] at hy
  split at hy
  · cases hy
  · rename_i r hr
    obtain ⟨rfl, rfl⟩ := Prod.mk.inj (Except.ok.inj hy)
    exact h r.1 r.2 hr

theorem post_fault {e : Fault} : Post (fault e) c P := by
  intro x c' hx
  cases hx

theorem Post.ite {b : Prop} [Decidable b] {p q : Parser α} (hp : b → Post p c P)
    (hq : ¬b → Post q c P) : Post (if b then p else q) c P := by
  split
  · rename_i h
    exact hp h
  · rename_i h
    exact hq h

/-- A rule that only looks gives something and takes nothing. -/
def Looks (p : Parser α) : Prop :=
  ∀ c, Post p c fun _ c' => c' = c

theorem Looks.bind (h : Looks p) (hf : ∀ x, Post (f x) c Q) : Post (p >>= f) c Q :=
  Post.bind (h c) fun x _ hc => hc ▸ hf x

theorem post_next : Post next? c fun x c' => x = c.tokens.head? ∧ c' = c := by
  intro x c' hx
  unfold next? at hx
  split at hx
  · rename_i htokens
    obtain ⟨rfl, rfl⟩ := Prod.mk.inj (Except.ok.inj hx)
    simp [htokens]
  · cases hx
  · rename_i htokens _
    obtain ⟨rfl, rfl⟩ := Prod.mk.inj (Except.ok.inj hx)
    simp [htokens]

theorem Post.next {f : Option Token → Parser β} (h : Post (f c.tokens.head?) c Q) :
    Post (next? >>= f) c Q := by
  refine post_next.bind fun x c' hx => ?_
  obtain ⟨rfl, rfl⟩ := hx
  exact h

theorem Post.get {f : Cursor → Parser β} (h : Post (f c) c Q) :
    Post ((MonadState.get : Parser Cursor) >>= f) c Q :=
  h

theorem Post.kind {f : Option TokenKind → Parser β}
    (h : ∀ k?, c.kind? = k? → Post (f k?) c Q) : Post (Parser.kind? >>= f) c Q := by
  have hkind : Post Parser.kind? c fun k? c' => c.kind? = k? ∧ c' = c :=
    Post.next (post_pure ⟨rfl, rfl⟩)
  refine hkind.bind fun k? c' h' => ?_
  obtain ⟨hk, rfl⟩ := h'
  exact h k? hk

theorem looks_nextIs {test : TokenKind → Bool} : Looks (nextIs test) :=
  fun _ => Post.kind fun _ _ => post_pure rfl

theorem looks_isNext {k : TokenKind} : Looks (isNext k) :=
  fun _ => Post.kind fun _ _ => post_pure rfl

theorem Post.second {f : Option TokenKind → Parser β} (h : Post (f c.second?) c Q) :
    Post (Parser.second? >>= f) c Q :=
  h

theorem looks_settle : Looks settle := by
  intro c x c' hx
  unfold settle at hx
  split at hx
  · cases hx
  · obtain ⟨-, rfl⟩ := Prod.mk.inj (Except.ok.inj hx)
    rfl

theorem Post.here {f : Nat → Parser β} (h : Post (f c.here) c Q) :
    Post (Parser.here >>= f) c Q := by
  have hhere : Post Parser.here c fun n c' => n = c.here ∧ c' = c :=
    Post.next (Post.get (post_pure ⟨rfl, rfl⟩))
  refine hhere.bind fun n c' h' => ?_
  obtain ⟨rfl, rfl⟩ := h'
  exact h

theorem Post.span {f : Span → Parser β} {start : Nat} (h : Post (f ⟨start, c.stop⟩) c Q) :
    Post (spanFrom start >>= f) c Q :=
  h

/-- A held fault leaves the tokens as they are. -/
theorem post_hold {e : Fault} :
    Post (hold e) c fun _ c' => c.Takes [] c' := by
  intro x c' hx
  obtain ⟨-, rfl⟩ := Prod.mk.inj (Except.ok.inj hx)
  exact ⟨rfl, rfl⟩

theorem post_take {t : Token} (h : c.tokens.head? = some t) :
    Post take c fun _ c' => c.Takes [t] c' := by
  refine looks_settle.bind fun _ => ?_
  intro x c' hx
  obtain ⟨-, rfl⟩ := Prod.mk.inj (Except.ok.inj hx)
  cases hc : c.tokens with
  | nil => simp [hc] at h
  | cons t' ts =>
    obtain rfl : t' = t := by simpa [hc] using h
    exact ⟨by simp [hc], by simp [hc]⟩

theorem post_unexpected : Post (unexpected : Parser α) c P := by
  refine Post.next ?_
  split
  · exact post_fault
  · exact Post.get post_fault

theorem kind?_eq_some {k : TokenKind} (h : c.kind? = some k) :
    ∃ t, c.tokens.head? = some t ∧ t.kind = k := by
  simpa [Cursor.kind?] using h

/-- The next token is taken, whose kind is known. -/
theorem Post.take {k : TokenKind} {f : Unit → Parser β} (hk : c.kind? = some k)
    (h : ∀ t c', c.Takes [t] c' → t.kind = k → Post (f ()) c' Q) :
    Post (Parser.take >>= f) c Q := by
  obtain ⟨t, ht, rfl⟩ := kind?_eq_some hk
  exact (post_take ht).bind fun _ c' h' => h t c' h' rfl

/-- A token of a kind is taken, or nothing is. -/
theorem post_accept {k : TokenKind} : Post (accept k) c fun b c' =>
    b = true ∧ (∃ t, c.Takes [t] c' ∧ t.kind = k) ∨ b = false ∧ c' = c := by
  refine Post.kind fun k? hk => ?_
  split
  · rename_i h
    exact Post.take (hk.trans h) fun t c' ht hk => post_pure (.inl ⟨rfl, t, ht, hk⟩)
  · exact post_pure (.inr ⟨rfl, rfl⟩)

theorem Post.acceptToken {k : TokenKind} {f : Bool → Parser β}
    (ht : ∀ t c', c.Takes [t] c' → t.kind = k → Post (f true) c' Q) (hf : Post (f false) c Q) :
    Post (accept k >>= f) c Q := by
  refine post_accept.bind fun b c' h => ?_
  rcases h with ⟨rfl, t, h, hk⟩ | ⟨rfl, rfl⟩
  · exact ht t c' h hk
  · exact hf

theorem Post.expectToken {k : TokenKind} {f : Unit → Parser β}
    (h : ∀ t c', c.Takes [t] c' → t.kind = k → Post (f ()) c' Q) :
    Post (expect k >>= f) c Q := by
  refine Post.bind (Post.acceptToken (Q := fun _ c' => ∃ t, c.Takes [t] c' ∧ t.kind = k)
    (fun t c' ht hk => post_pure ⟨t, ht, hk⟩) post_unexpected) fun _ c' h' => ?_
  obtain ⟨t, ht, hk⟩ := h'
  exact h t c' ht hk

/-- A word is taken, or nothing is. -/
theorem Post.accept {k : TokenKind} {f : Bool → Parser β} (hk : k.isLayout = false)
    (ht : ∀ c', c.Passes c' → Post (f true) c' Q) (hf : Post (f false) c Q) :
    Post (Parser.accept k >>= f) c Q :=
  Post.acceptToken (fun _ c' h hkind => ht c' (h.passes (hkind ▸ hk))) hf

theorem Post.expect {k : TokenKind} {f : Unit → Parser β} (hk : k.isLayout = false)
    (h : ∀ c', c.Passes c' → Post (f ()) c' Q) : Post (Parser.expect k >>= f) c Q :=
  Post.expectToken fun _ c' h' hkind => h c' (h'.passes (hkind ▸ hk))

theorem post_name : Post identifier c fun id c' => ∃ t, c.Takes [t] c' ∧ t.kind = .name id := by
  refine Post.kind fun k? hk => ?_
  split
  · exact Post.take hk fun t c' ht hkind => post_pure ⟨t, ht, hkind⟩
  · exact post_unexpected

theorem post_identifier :
    Post identifier c fun _ c' => ∃ t, c.Takes [t] c' ∧ t.kind.isLayout = false := by
  refine post_name.mono fun id c' h => ?_
  obtain ⟨t, ht, hname⟩ := h
  exact ⟨t, ht, by rw [hname]; rfl⟩

/-- A name is taken. -/
theorem Post.identifier {f : Text → Parser β} (h : ∀ id c', c.Passes c' → Post (f id) c' Q) :
    Post (Parser.identifier >>= f) c Q := by
  refine post_identifier.bind fun id c' h' => ?_
  obtain ⟨t, ht, hword⟩ := h'
  exact h id c' (ht.passes hword)

/-- What is said of a value between two cursors still holds between cursors farther apart. -/
structure Extends (T : Cursor → Cursor → α → Prop) : Prop where
  before : ∀ {c c₁ c₂ x}, c.Reaches c₁ → T c₁ c₂ x → T c c₂ x
  after : ∀ {c c₁ c₂ x}, T c c₁ x → c₁.Reaches c₂ → T c c₂ x

theorem extends_true : Extends fun _ _ (_ : α) => True :=
  ⟨fun _ _ => trivial, fun _ _ => trivial⟩

/-- A rule for an item: it takes at least one word. -/
def Item (p : Parser α) (T : Cursor → Cursor → α → Prop) : Prop :=
  ∀ c, Post p c fun x c' => c.Passes c' ∧ T c c' x

/-- A rule that takes at least one word, whatever it gives. -/
def Plain (p : Parser α) : Prop :=
  Item p fun _ _ _ => True

theorem Item.plain {T : Cursor → Cursor → α → Prop} (h : Item p T) : Plain p :=
  fun c => (h c).mono fun _ _ hx => ⟨hx.1, trivial⟩

theorem plain_identifier : Plain identifier := by
  intro c
  refine post_identifier.mono fun _ c' h => ?_
  obtain ⟨t, ht, hword⟩ := h
  exact ⟨ht.passes hword, trivial⟩

theorem Plain.map (hp : Plain p) (g : α → β) : Plain (g <$> p) :=
  fun c => Post.map (hp c)

/-- An optional item before the rest of a rule, where a token starts one. -/
theorem Post.optional {test : TokenKind → Bool} {f : Option α → Parser β} (hp : Plain p)
    (h : ∀ x c', c.Reaches c' → Post (f x) c' Q) :
    Post (nextIs test >>= fun b => if b = true then some <$> p >>= f else pure none >>= f) c Q := by
  refine looks_nextIs.bind fun b => ?_
  split
  · exact (hp.map some c).bind fun x c' h' => h x c' h'.1.reaches
  · exact h none c (.refl c)

/-- An optional item before the rest of a rule, behind a token that is taken. -/
theorem Post.optionalAfter {k : TokenKind} {f : Option α → Parser β} (hk : k.isLayout = false)
    (hp : Plain p) (h : ∀ x c', c.Reaches c' → Post (f x) c' Q) :
    Post (Parser.accept k >>= fun b => if b = true then some <$> p >>= f else pure none >>= f)
      c Q := by
  refine Post.accept hk (fun c₁ h₁ => ?_) (h none c (.refl c))
  exact (hp.map some c₁).bind fun x c' h' => h x c' (h₁.trans h'.1.reaches).reaches

section Lists

variable {T : Cursor → Cursor → α → Prop} (hT : Extends T) {item : Parser α}
  (hitem : Item item T)

include hT hitem

/-- Items stay within the words that are taken for them, one after the other. -/
theorem post_manyWhile {more : Parser Bool} (hmore : ∀ c, Post more c fun _ c' => c.Reaches c')
    (fuel : Nat) (c : Cursor) :
    Post (manyWhile more item fuel) c fun xs c' => c.Reaches c' ∧
      (xs = [] ∨ c.Passes c') ∧ ∀ x ∈ xs, T c c' x := by
  induction fuel generalizing c with
  | zero => exact post_pure ⟨.refl c, .inl rfl, by simp⟩
  | succ fuel ih =>
    refine (hmore c).bind fun b c₁ h₁ => ?_
    split
    · refine (hitem c₁).bind fun x c₂ h₂ => ?_
      refine (ih c₂).bind fun xs c₃ h₃ => ?_
      obtain ⟨hreach, -, hxs⟩ := h₃
      refine post_pure ⟨h₁.trans (h₂.1.reaches.trans hreach),
        .inr (h₁.passes (h₂.1.trans hreach)), fun y hy => ?_⟩
      rcases List.mem_cons.mp hy with rfl | hy
      · exact hT.before h₁ (hT.after h₂.2 hreach)
      · exact hT.before (h₁.trans h₂.1.reaches) (hxs y hy)
    · exact post_pure ⟨h₁, .inl rfl, by simp⟩

theorem post_moreItems (starts : TokenKind → Bool) (fuel : Nat) (c : Cursor) :
    Post (moreItems starts item fuel) c fun r c' => c.Reaches c' ∧ ∀ x ∈ r.1, T c c' x := by
  induction fuel generalizing c with
  | zero => exact post_pure ⟨.refl c, by simp⟩
  | succ fuel ih =>
    refine Post.accept rfl (fun c₁ h₁ => ?_) (post_pure ⟨.refl c, by simp⟩)
    refine looks_nextIs.bind fun b => ?_
    cases b with
    | true =>
      refine (hitem c₁).bind fun x c₂ h₂ => ?_
      refine (ih c₂).bind fun r c₃ h₃ => ?_
      refine post_pure ⟨h₁.reaches.trans (h₂.1.reaches.trans h₃.1), fun y hy => ?_⟩
      rcases List.mem_cons.mp hy with rfl | hy
      · exact hT.before h₁.reaches (hT.after h₂.2 h₃.1)
      · exact hT.before (h₁.trans h₂.1.reaches).reaches (h₃.2 y hy)
    | false => exact post_pure ⟨h₁.reaches, by simp⟩

theorem post_items (fuel : Nat) (starts : TokenKind → Bool) (c : Cursor) :
    Post (items fuel starts item) c fun r c' => c.Passes c' ∧ ∀ x ∈ r.1, T c c' x := by
  refine (hitem c).bind fun x c₁ h₁ => ?_
  refine (post_moreItems hT hitem starts fuel c₁).bind fun r c₂ h₂ => ?_
  refine post_pure ⟨h₁.1.trans h₂.1, fun y hy => ?_⟩
  rcases List.mem_cons.mp hy with rfl | hy
  · exact hT.after h₁.2 h₂.1
  · exact hT.before h₁.1.reaches (h₂.2 y hy)

end Lists

theorem reaches_accept {k : TokenKind} (hk : k.isLayout = false) (c : Cursor) :
    Post (accept k) c fun _ c' => c.Reaches c' := by
  refine post_accept.mono fun b c' h => ?_
  rcases h with ⟨-, t, ht, rfl⟩ | ⟨-, rfl⟩
  · exact (ht.passes hk).reaches
  · exact .refl _

theorem Looks.reaches (h : Looks p) (c : Cursor) : Post p c fun _ c' => c.Reaches c' :=
  (h c).mono fun _ _ hc => hc ▸ .refl c

theorem post_separated {T : Cursor → Cursor → α → Prop} (hT : Extends T) {item : Parser α}
    (hitem : Item item T) (fuel : Nat) (c : Cursor) :
    Post (separated fuel item) c fun xs c' => c.Passes c' ∧ ∀ x ∈ xs, T c c' x := by
  refine (hitem c).bind fun x c₁ h₁ => ?_
  refine (post_manyWhile hT hitem (reaches_accept rfl) fuel c₁).bind fun xs c₂ h₂ => ?_
  refine post_pure ⟨h₁.1.trans h₂.1, fun y hy => ?_⟩
  rcases List.mem_cons.mp hy with rfl | hy
  · exact hT.after h₁.2 h₂.1
  · exact hT.before h₁.1.reaches (h₂.2.2 y hy)

end Parser
end Pagewright.Syntax
