import Pagewright.Proofs.Grammar.Bare
import Pagewright.Proofs.Reread.Even
import Pagewright.Proofs.Grammar.Gives
import Pagewright.Proofs.Grammar.Takes

namespace Pagewright.Syntax

/-- What a token counts for the nesting of rules. A literal may hold texts that are read by rules
of their own. -/
def TokenKind.weight : TokenKind → Nat
  | .literal l => 2 * l.content.length + 4
  | _ => 1

def load : List TokenKind → Nat
  | [] => 0
  | k :: ks => k.weight + load ks

@[simp]
theorem load_nil : load [] = 0 := rfl

@[simp]
theorem load_cons (k : TokenKind) (ks : List TokenKind) : load (k :: ks) = k.weight + load ks :=
  rfl

@[simp]
theorem load_append (ks ks' : List TokenKind) : load (ks ++ ks') = load ks + load ks' := by
  induction ks with
  | nil => simp
  | cons k ks ih => simp [ih, Nat.add_assoc]

theorem TokenKind.weight_pos (k : TokenKind) : 0 < k.weight := by
  cases k <;> simp [weight]

theorem length_le_load (ks : List TokenKind) : ks.length ≤ load ks := by
  induction ks with
  | nil => exact Nat.le_refl 0
  | cons k ks ih =>
    have hk := k.weight_pos
    rw [List.length_cons, load_cons]
    omega

/-- Between two cursors nothing went wrong, neither before the first one. -/
structure Cursor.Clear (c c' : Cursor) : Prop where
  held : c.held = none
  ending : c.ending = c'.ending

theorem Cursor.Clear.trans {c c' c'' : Cursor} (h : c.Clear c') (h' : c'.Clear c'') :
    c.Clear c'' :=
  ⟨h.held, h.ending.trans h'.ending⟩

/-- Other tokens follow where `next?` followed: the first of them is of the same kind, or one at
which a rule stops. -/
def Follows (stops : TokenKind → Bool) (next? : Option TokenKind) (rest : List TokenKind) : Prop :=
  ∃ k, rest.head? = some k ∧ (next? = some k ∨ stops k = true)

/-- The tokens that follow some tokens do so again, behind these. -/
theorem Follows.front {stops : TokenKind → Bool} {least : Nat} {c c₁ : Cursor} {ts : List Token}
    {rest : List TokenKind}
    (h : Follows stops c₁.kind? rest) (hts : c.Takes ts c₁) (hlen : least ≤ ts.length) :
    ∃ k ks, ts.map Token.kind ++ rest = k :: ks ∧
      (c.kind? = some k ∨ least = 0 ∧ stops k = true) := by
  cases ts with
  | nil =>
    obtain ⟨k, hk, hor⟩ := h
    obtain ⟨ks, rfl⟩ := List.head?_eq_some_iff.mp hk
    refine ⟨k, ks, rfl, hor.imp (fun h => ?_) fun h => ⟨by simpa using hlen, h⟩⟩
    rw [← h, Cursor.kind?, Cursor.kind?, hts.tokens, List.nil_append]
  | cons t ts => exact ⟨t.kind, _, rfl, .inl (by simp [Cursor.kind?, hts.tokens])⟩

namespace Parser

/-- Whenever `p` gives a result at a cursor, the tokens that it takes are at least `least` and have
the shape `W`; and where their load is below `most`, the rule `p'` gives on tokens of their kinds
the same result up to `erase`. It may be followed by other tokens than `p` was if these start with
a token of `stops`. -/
def Repeats {α β : Type} (most least : Nat) (stops : TokenKind → Bool)
    (W : List TokenKind → Prop) (erase : α → β) (p p' : Parser α) (c : Cursor) : Prop :=
  Post p c fun x c₁ => c₁.held = none → c.Clear c₁ ∧ ∃ ts, c.Takes ts c₁ ∧ least ≤ ts.length ∧
    W (ts.map Token.kind) ∧ (load (ts.map Token.kind) < most →
      ∀ rest, Follows stops c₁.kind? rest →
        Gives p' (ts.map Token.kind ++ rest) (fun x' => erase x' = erase x) rest)

def placeless {α : Type} : α → Unit :=
  fun _ => ()

variable {α β γ δ ε : Type} {most most' least least' b n d lo mid hi : Nat}
  {stops stops' : TokenKind → Bool} {W W₁ W₂ : List TokenKind → Prop} {erase : α → γ}
  {erase' : β → δ} {p p' p'' : Parser α} {f f' : α → Parser β} {c : Cursor} {k : TokenKind}

theorem Repeats.mono (h : Repeats most least stops W erase p p' c) (hmost : most' ≤ most)
    (hleast : least' ≤ least) : Repeats most' least' stops W erase p p' c := by
  intro x c₁ hx hclear
  obtain ⟨hc, ts, hts, hlen, hW, hgives⟩ := h x c₁ hx hclear
  exact ⟨hc, ts, hts, by omega, hW, fun hload => hgives (by omega)⟩

/-- How many tokens there are at least may be forgotten. -/
theorem Repeats.weaken (h : Repeats most least stops W erase p p' c) :
    Repeats most 0 stops W erase p p' c :=
  h.mono (Nat.le_refl _) (Nat.zero_le _)

theorem Repeats.until (h : Repeats most least stops W erase p p' c)
    (hstops : ∀ k, stops' k = true → stops k = true) :
    Repeats most least stops' W erase p p' c := by
  intro x c₁ hx hclear
  obtain ⟨hc, ts, hts, hlen, hW, hgives⟩ := h x c₁ hx hclear
  refine ⟨hc, ts, hts, hlen, hW, fun hload rest hrest => hgives hload rest ?_⟩
  obtain ⟨k, hk, hor⟩ := hrest
  exact ⟨k, hk, hor.imp_right (hstops k)⟩

/-- No load is below nothing: what repeats a rule does not matter then. -/
theorem Repeats.never (h : Repeats most least stops W erase p p' c) :
    Repeats 0 least stops W erase p p'' c := by
  intro x c₁ hx hclear
  obtain ⟨hc, ts, hts, hlen, hshape, -⟩ := h x c₁ hx hclear
  exact ⟨hc, ts, hts, hlen, hshape, fun hload => absurd hload (Nat.not_lt_zero _)⟩

theorem repeats_pure {x y : α} {m : Nat} (h : erase y = erase x) :
    Repeats m 0 stops (Even d d) erase (pure x) (pure y) c :=
  post_pure fun hc => ⟨⟨hc, rfl⟩, [], .refl c, Nat.le_refl 0, even_nil, fun _ _ _ => gives_pure h⟩

theorem repeats_unexpected : Repeats most least stops W erase unexpected p' c :=
  post_unexpected

/-- A held fault is raised at the latest behind the text. -/
theorem repeats_hold {e : Fault} {g : Unit → Parser α}
    (hg : ∀ c', Repeats most least stops W erase (g ()) p' c') :
    Repeats most least stops W erase (hold e >>= g) p'' c := by
  intro y c₁ hy hclear
  have hheld : Post (hold e >>= g) c fun _ c'' => c''.held ≠ none := by
    have hhold : Post (hold e) c fun _ c' => c'.held ≠ none := by
      intro x c' hx
      obtain ⟨-, rfl⟩ := Prod.mk.inj (Except.ok.inj hx)
      cases hc : c.held <;> simp [hc]
    refine hhold.bind fun _ c' hc' => Post.mono (hg c') fun _ c'' h hc'' => ?_
    exact hc' (h hc'').1.held
  exact absurd hclear (hheld y c₁ hy)

/-- Rules one after the other. The first one may be followed by whatever the second one starts
with, and by what follows both where the second one may take nothing. -/
theorem Repeats.bindShaped {m l : Nat} {V : List TokenKind → Prop}
    (h : Repeats most n stops' W₁ erase p p' c)
    (hf : ∀ x x' c₁, erase x' = erase x → Repeats m l stops V erase' (f x) (f' x') c₁)
    (hW : ∀ ks ks', W₁ ks → V ks' → W (ks ++ ks')) (hmost : most ≤ m + n)
    (hstops : l = 0 → ∀ k, stops k = true → stops' k = true) :
    Repeats most (n + l) stops W erase' (p >>= f) (p' >>= f') c := by
  intro y c₂ hy hclear
  obtain ⟨x, c₁, hx, hfx⟩ : ∃ x c₁, p c = .ok (x, c₁) ∧ f x c₁ = .ok (y, c₂) := by
    simp only [Bind.bind, StateT.bind, Except.bind] at hy
    split at hy
    · cases hy
    · rename_i r hr
      exact ⟨r.1, r.2, hr, hy⟩
  obtain ⟨hc₁, us, hus, hulen, hW₂, -⟩ := hf x x c₁ rfl y c₂ hfx hclear
  obtain ⟨hc, ts, hts, hlen, hW₁, hgives⟩ := h x c₁ hx hc₁.held
  refine ⟨hc.trans hc₁, ts ++ us, hts.trans hus, by simp; omega, by simpa using hW _ _ hW₁ hW₂, ?_⟩
  intro hload rest hrest
  simp only [List.map_append, load_append] at hload
  have hcount := length_le_load (ts.map Token.kind)
  rw [List.length_map] at hcount
  rw [List.map_append, List.append_assoc]
  refine (hgives (by omega) (us.map Token.kind ++ rest) ?_).bind fun x' hx' => ?_
  · obtain ⟨k, ks, hks, hor⟩ := hrest.front hus hulen
    exact ⟨k, by rw [hks, List.head?_cons], hor.imp_right fun h => hstops h.1 k h.2⟩
  · obtain ⟨-, us', hus', -, -, hgives'⟩ := hf x x' c₁ hx' y c₂ hfx hclear
    obtain rfl : us = us' := List.append_cancel_right (hus.tokens.symm.trans hus'.tokens)
    exact hgives' (by omega) rest hrest

/-- The first rule of several takes something. -/
theorem Repeats.then (h : Repeats (b + 1) 1 stops (Even lo mid) erase p p' c)
    (hf : ∀ x x' c₁, erase x' = erase x →
      Repeats b 0 stops (Even mid hi) erase' (f x) (f' x') c₁) :
    Repeats (b + 1) 1 stops (Even lo hi) erase' (p >>= f) (p' >>= f') c :=
  h.bindShaped hf (fun _ _ => .append) (Nat.le_refl _) fun _ _ => id

theorem Repeats.bind (h : Repeats b least stops (Even lo mid) erase p p' c)
    (hf : ∀ x x' c₁, erase x' = erase x →
      Repeats b 0 stops (Even mid hi) erase' (f x) (f' x') c₁) :
    Repeats b least stops (Even lo hi) erase' (p >>= f) (p' >>= f') c :=
  h.bindShaped hf (fun _ _ => .append) (Nat.le_add_right _ _) fun _ _ => id

/-- The last rule of several takes something, so that the first one is followed by it. -/
theorem Repeats.andThen (h : Repeats b n stops' (Even lo mid) erase p p' c)
    (hf : ∀ x x' c₁, erase x' = erase x →
      Repeats b 1 stops (Even mid hi) erase' (f x) (f' x') c₁)
    (hleast : least ≤ n + 1 := by decide) :
    Repeats b least stops (Even lo hi) erase' (p >>= f) (p' >>= f') c :=
  (h.bindShaped hf (fun _ _ => .append) (Nat.le_add_right _ _)
    fun h => absurd h (by decide)).mono (Nat.le_refl _) hleast

theorem Repeats.map {g : α → β} (h : Repeats most least stops W erase p p' c)
    (hg : ∀ x x', erase x' = erase x → erase' (g x') = erase' (g x)) :
    Repeats most least stops W erase' (g <$> p) (g <$> p') c := by
  refine Post.map (Post.mono h fun x c₁ hx hclear => ?_)
  obtain ⟨hc, ts, hts, hlen, hW, hgives⟩ := hx hclear
  refine ⟨hc, ts, hts, hlen, hW, fun hload rest hrest => ?_⟩
  exact (hgives hload rest hrest).bind fun x' hx' => gives_pure (hg x x' hx')

end Parser
end Pagewright.Syntax
