import Pagewright.Proofs.Reread.Steps

namespace Pagewright.Syntax.Reader

open Text

variable {s s' b : Reader} {ts : List Token} {ks : List TokenKind} {d : Nat}

/-- The number of open brackets behind some tokens; none where one closes a bracket that was not
opened. -/
def depthBehind? (depth : Nat) (ks : List TokenKind) : Option Nat :=
  ks.foldlM TokenKind.depthBehind? depth

theorem Reads.eq_or_passes (h : Reads s ts s') : s = s' ∨ s.rest.Passes s'.rest := by
  cases h with
  | done => exact .inl rfl
  | step first run =>
    refine .inr (first.passes.trans ?_)
    clear first
    induction run with
    | done => exact .refl _
    | step first _ ih => exact first.passes.reaches.trans ih

theorem Step.inLine (h : Step s ts s') (hline : s.atLineStart = false) :
    ∃ c cs, s.rest.text = c :: cs ∧ s.readInLine c = .ok (ts, s') := by
  obtain ⟨margin, inside, c, cs, found, henter, htext, hread, rfl⟩ := h
  simp only [Reader.enter, hline, Bool.false_eq_true, if_false] at henter
  obtain ⟨rfl, rfl⟩ := Prod.mk.inj (Except.ok.inj henter)
  exact ⟨c, cs, htext, hread⟩

/-- Wherever a text stands inside a line among `depth` brackets, and whatever it rejoins behind it,
it is read as tokens of the same kinds. -/
def Respells (depth d : Nat) (w after : Text) (ks : List TokenKind) : Prop :=
  ∀ (b : Reader) (u : Text), b.atLineStart = false → b.depth = depth → b.rest.text = w ++ u →
    Rejoins after u → ∃ place, Spells b ks (inLine d b.blocks u place)

/-- Wherever a text stands inside a line among `depth` brackets, a line end is read in it, outside
of all brackets. -/
structure Breaks (depth : Nat) (w after : Text) (ks : List TokenKind) : Prop where
  outside : ∀ outer, depth = outer + 1 → depthBehind? outer ks = none
  newline : ∀ (b : Reader) (u : Text), b.atLineStart = false → b.depth = depth →
    b.rest.text = w ++ u → Rejoins after u → ∃ ks₁ b' v, v ≠ [] ∧ b'.rest.text = v ++ u ∧
      Spells b (ks₁ ++ [.newline]) b'

/-- What some steps do on the same text with brackets around it: they give tokens of the same
kinds, or a line ends outside of brackets. -/
structure RunAgain (s s' : Reader) (ks : List TokenKind) : Prop where
  line : s'.atLineStart = false
  depth : depthBehind? s.depth ks = some s'.depth
  again : ∃ w, w ≠ [] ∧ s.rest.text = w ++ s'.rest.text ∧ ∀ depth d,
    depthBehind? depth ks = some d → Respells depth d w s'.rest.text ks ∨ Breaks depth w s'.rest.text ks

theorem depthBehind?_cons {k : TokenKind} {depth : Nat} (h : depthBehind? depth (k :: ks) = some d) :
    ∃ d₁, k.depthBehind? depth = some d₁ ∧ depthBehind? d₁ ks = some d := by
  simpa [depthBehind?, Option.bind_eq_some_iff] using h

section Behind

variable {depth d₁ : Nat} {v w after : Text} {ks ks₁ : List TokenKind}
  (hfirst : ∀ (b : Reader) (u : Text), b.atLineStart = false → b.depth = depth →
    b.rest.text = v ++ (w ++ u) → Rejoins after u →
      ∃ place, Spells b ks₁ (inLine d₁ b.blocks (w ++ u) place))

include hfirst

theorem Respells.behind (h : Respells d₁ d w after ks) :
    Respells depth d (v ++ w) after (ks₁ ++ ks) := by
  intro b u hline hdepth htext hu
  rw [List.append_assoc] at htext
  obtain ⟨place, hspells⟩ := hfirst b u hline hdepth htext hu
  obtain ⟨place', hlater⟩ := h (inLine d₁ b.blocks (w ++ u) place) u rfl rfl rfl hu
  exact ⟨place', hspells.trans hlater⟩

theorem Breaks.behind (h : Breaks d₁ w after ks)
    (houter : ∀ outer d, depth = outer + 1 → depthBehind? outer (ks₁ ++ ks) = some d →
      ∃ inner, d₁ = inner + 1 ∧ depthBehind? inner ks = some d) :
    Breaks depth (v ++ w) after (ks₁ ++ ks) := by
  refine ⟨fun outer hdepth => ?_, fun b u hline hdepth htext hu => ?_⟩
  · by_contra hsome
    obtain ⟨d, hd⟩ := Option.ne_none_iff_exists'.mp hsome
    obtain ⟨inner, hinner, hd'⟩ := houter outer d hdepth hd
    rw [h.outside inner hinner] at hd'
    cases hd'
  · rw [List.append_assoc] at htext
    obtain ⟨place, hspells⟩ := hfirst b u hline hdepth htext hu
    obtain ⟨ks₂, b', x, hx, hrest, hnewline⟩ := h.newline (inLine d₁ b.blocks (w ++ u) place) u rfl rfl
      rfl hu
    exact ⟨ks₁ ++ ks₂, b', x, hx, hrest, by simpa using hspells.trans hnewline⟩

end Behind

/-- Tokens without line ends are read again. -/
theorem Reads.again (h : Reads s ts s') (hline : s.atLineStart = false)
    (hwords : ∀ t ∈ ts, t.kind.isLayout = false)
    (hlast : ts.getLast?.map Token.stop = some s'.rest.offset) :
    RunAgain s s' (ts.map Token.kind) := by
  induction h with
  | done => cases hlast
  | @step s s₁ s' ts later first run ih =>
    obtain ⟨c, cs, hc, hread⟩ := first.inLine hline
    rcases (readInLine_took hc hread).tokens with rfl | ⟨t, rfl, hcovers⟩
    · rw [List.nil_append] at hwords hlast ⊢
      obtain ⟨x, later', hx⟩ : ∃ x later', s₁.rest.text = x :: later' := by
        cases run with
        | done => cases hlast
        | step first =>
          have hlen := first.passes.shorter
          exact List.exists_cons_of_length_pos (by omega)
      obtain ⟨hdepth, hsame, w, hw, hagain⟩ := again_gap hc hread hx
      obtain ⟨hline', hdepth', w', hne, hw', hrun⟩ := ih (hsame.trans hline) hwords hlast
      obtain ⟨y, w', rfl⟩ := List.exists_cons_of_ne_nil hne
      obtain ⟨rfl, -⟩ := List.cons.inj (hx.symm.trans hw')
      refine ⟨hline', hdepth ▸ hdepth', c :: w ++ x :: w', by simp, ?_, fun depth d hd => ?_⟩
      · rw [hc, hw, ← hx, hw']
        simp
      rcases hagain depth with hsilent | ⟨rfl, hends⟩
      · have hfirst (b : Reader) (u : Text) (hb : b.atLineStart = false) (hdepth : b.depth = depth)
            (htext : b.rest.text = c :: w ++ (x :: w' ++ u)) (_ : Rejoins s'.rest.text u) :
            ∃ place, Spells b [] (inLine depth b.blocks (x :: w' ++ u) place) := by
          obtain ⟨place, hread⟩ := hsilent b (w' ++ u) hdepth htext
          have hitem := spells_item hb htext hread
          rw [hb, hdepth] at hitem
          exact ⟨place, hitem⟩
        exact (hrun depth d hd).imp (.behind hfirst)
          fun h => .behind hfirst h fun outer d houter hd => ⟨outer, houter, hd⟩
      · refine .inr ⟨fun outer houter => (by cases houter), fun b u hb hzero htext _ => ?_⟩
        obtain ⟨t, b', hkind, hrest, hread⟩ := hends b (w' ++ u) hzero (by simpa using htext)
        refine ⟨[], b', x :: w', List.cons_ne_nil x w', hrest, ?_⟩
        rw [← hkind]
        exact spells_item hb htext hread
    · have hword := hwords t (by simp)
      obtain ⟨hdepth, hsame, w, hw, hagain⟩ := again_readInLine hc hread hword
      cases later with
      | nil =>
        have hstop : t.stop = s'.rest.offset := by simpa using hlast
        rcases run.eq_or_passes with rfl | hpasses
        · refine ⟨hsame.trans hline, by simp [depthBehind?, hdepth], c :: w, by simp,
            by rw [hc, hw]; rfl, fun depth d hd => .inl fun b u hb hsame' htext hu => ?_⟩
          obtain ⟨d₁, hd₁, hnil⟩ := depthBehind?_cons hd
          obtain rfl : d₁ = d := Option.some.inj hnil
          obtain ⟨t', place, hkind, hread'⟩ := hagain b u d₁ htext hu (hsame' ▸ hd₁)
          have hitem := spells_item hb htext hread'
          rw [hb] at hitem
          exact ⟨place, by simpa [hkind] using hitem⟩
        · have hlt := hpasses.offset_lt
          rw [← hstop, hcovers.stop] at hlt
          exact absurd hlt (Nat.lt_irrefl _)
      | cons t' later =>
        obtain ⟨hline', hdepth', w', -, hw', hrun⟩ := ih (hsame.trans hline)
          (fun x hx => hwords x (List.mem_append_right _ hx)) (by simpa using hlast)
        refine ⟨hline', ?_, c :: w ++ w', by simp, by rw [hc, hw, hw']; simp, fun depth d hd => ?_⟩
        · simpa [depthBehind?, hdepth] using hdepth'
        obtain ⟨d₁, hd₁, hd⟩ := depthBehind?_cons hd
        have hfirst (b : Reader) (u : Text) (hb : b.atLineStart = false) (hdepth : b.depth = depth)
            (htext : b.rest.text = c :: w ++ (w' ++ u)) (hu : Rejoins s'.rest.text u) :
            ∃ place, Spells b [t.kind] (inLine d₁ b.blocks (w' ++ u) place) := by
          obtain ⟨t₁, place, hkind, hread'⟩ := hagain b (w' ++ u) d₁ htext (hw' ▸ hu.append w')
            (hdepth ▸ hd₁)
          have hitem := spells_item hb htext hread'
          rw [hb, List.map_singleton, hkind] at hitem
          exact ⟨place, hitem⟩
        refine (hrun d₁ d hd).imp (.behind hfirst) fun h => .behind hfirst h ?_
        intro outer d' houter hd'
        obtain ⟨inner, hinner, hd'⟩ := depthBehind?_cons hd'
        have hadd := depthBehind?_add hinner 1
        rw [← houter, hd₁] at hadd
        exact ⟨inner, Option.some.inj hadd, hd'⟩

end Pagewright.Syntax.Reader
