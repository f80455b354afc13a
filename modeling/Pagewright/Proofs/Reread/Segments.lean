import Pagewright.Proofs.Grammar.Placing
import Pagewright.Proofs.Reread.Fields
import Pagewright.Proofs.Reread.Runs

namespace Pagewright.Syntax

def TokenKind.softer : TokenKind → TokenKind
  | .keyword .matchWord => .name Keyword.matchWord.text
  | .keyword .caseWord => .name Keyword.caseWord.text
  | .keyword .typeWord => .name Keyword.typeWord.text
  | k => k

def Token.softer (t : Token) : Token :=
  { t with kind := t.kind.softer }

section Softer

variable {k : TokenKind} {t : Token} {ts before rest : List Token}

theorem softer_layout (k : TokenKind) : k.softer.isLayout = k.isLayout := by
  cases k with
  | keyword w => cases w <;> rfl
  | _ => rfl

theorem softer_weight (k : TokenKind) : k.softer.weight = k.weight := by
  cases k with
  | keyword w => cases w <;> rfl
  | _ => rfl

theorem softer_depth (k : TokenKind) (d : Nat) : k.softer.depthBehind? d = k.depthBehind? d := by
  cases k with
  | keyword w => cases w <;> rfl
  | _ => rfl

/-- A line starts behind the end of one, and where a block opens or closes. -/
theorem soften_next (lineStart : Bool) (t : Token) (ts : List Token) :
    ∃ kind, soften lineStart (t :: ts) = { t with kind } :: soften kind.isLayout ts ∧
      (kind = t.kind ∨ kind = t.kind.softer) := by
  have hstarts (k : TokenKind) :
      (decide (k = .newline) || decide (k = .indent) || decide (k = .dedent)) = k.isLayout := by
    cases k <;> rfl
  obtain ⟨k, start, stop⟩ := t
  simp only [soften, hstarts]
  refine ⟨_, rfl, ?_⟩
  cases k with
  | keyword word =>
    cases word with
    | matchWord | caseWord | typeWord =>
      dsimp only
      split
      · exact .inl rfl
      · exact .inr rfl
    | _ => exact .inl rfl
  | _ => exact .inl rfl

theorem soften_inner (t : Token) (ts : List Token) :
    soften false (t :: ts) = t.softer :: soften t.kind.isLayout ts := by
  obtain ⟨k, start, stop⟩ := t
  cases k with
  | keyword w => cases w <;> rfl
  | _ => rfl

/-- Words on a line are softened one by one. -/
theorem soften_words {us after : List Token} (h : soften false us = ts ++ after)
    (hwords : ∀ t ∈ ts, t.kind.isLayout = false) : ∃ ts' us', us = ts' ++ us' ∧
      ts = ts'.map Token.softer ∧ (∀ t ∈ ts', t.kind.isLayout = false) := by
  induction ts generalizing us with
  | nil => exact ⟨[], us, rfl, rfl, by simp⟩
  | cons t ts ih =>
    cases us with
    | nil => cases h
    | cons u us =>
      rw [soften_inner, List.cons_append] at h
      obtain ⟨rfl, hlater⟩ := List.cons.inj h
      have hu : u.kind.isLayout = false := by
        rw [← softer_layout]
        exact hwords _ List.mem_cons_self
      rw [hu] at hlater
      obtain ⟨ts', us', rfl, rfl, hts'⟩ := ih hlater fun t ht => hwords t (List.mem_cons_of_mem _ ht)
      exact ⟨u :: ts', us', rfl, rfl, List.forall_mem_cons.mpr ⟨hu, hts'⟩⟩

/-- What is softened is as it was, or a word has become a name. -/
theorem mem_soften {lineStart : Bool} {us : List Token} (h : t ∈ soften lineStart us) :
    ∃ u ∈ us, t = u ∨ t = u.softer := by
  induction us generalizing lineStart with
  | nil => cases h
  | cons u us ih =>
    obtain ⟨kind, hsoften, hkind⟩ := soften_next lineStart u us
    rw [hsoften] at h
    rcases List.mem_cons.mp h with rfl | h
    · refine ⟨u, List.mem_cons_self, ?_⟩
      rcases hkind with rfl | rfl
      · exact .inl rfl
      · exact .inr rfl
    · obtain ⟨x, hx, hsame⟩ := ih h
      exact ⟨x, List.mem_cons_of_mem u hx, hsame⟩

/-- What stands behind some tokens once words are made names comes from what stood behind some of
them before. -/
theorem soften_behind {lineStart : Bool} {us : List Token} (h : soften lineStart us = before ++ rest) :
    ∃ before' lineStart' us', us = before' ++ us' ∧ soften lineStart' us' = rest := by
  induction before generalizing lineStart us with
  | nil => exact ⟨[], lineStart, us, rfl, h⟩
  | cons t before ih =>
    cases us with
    | nil => cases h
    | cons u us =>
      obtain ⟨kind, hsoften, -⟩ := soften_next lineStart u us
      rw [hsoften, List.cons_append] at h
      obtain ⟨before', lineStart', us', rfl, hrest⟩ := ih (List.cons.inj h).2
      exact ⟨u :: before', lineStart', us', rfl, hrest⟩

/-- Words behind another one on its line are softened one by one. -/
theorem soften_segment {lineStart : Bool} {us after : List Token} {x : Token}
    (h : soften lineStart us = before ++ x :: ts ++ after) (hx : x.kind.isLayout = false)
    (hwords : ∀ t ∈ ts, t.kind.isLayout = false) : ∃ before' x' ts' us',
      us = before' ++ x' :: ts' ++ us' ∧ x'.kind.isLayout = false ∧ ts = ts'.map Token.softer ∧
        ∀ t ∈ ts', t.kind.isLayout = false := by
  rw [List.append_assoc] at h
  obtain ⟨before', lineStart', us', rfl, hrest⟩ := soften_behind h
  cases us' with
  | nil => cases hrest
  | cons u us =>
    obtain ⟨kind, hsoften, hkind⟩ := soften_next lineStart' u us
    rw [hsoften, List.cons_append] at hrest
    obtain ⟨rfl, hlater⟩ := List.cons.inj hrest
    rw [show kind.isLayout = false from hx] at hlater
    obtain ⟨ts', us', rfl, rfl, hts'⟩ := soften_words hlater hwords
    refine ⟨before', u, ts', us', by simp, ?_, rfl, hts'⟩
    rcases hkind with rfl | rfl
    · exact hx
    · rw [← softer_layout]
      exact hx

end Softer

namespace Reader

variable {s : Reader} {ts : List Token} {fuel : Nat}

/-- A step is taken, or no word is left. -/
theorem run_cases (s : Reader) (fuel : Nat) :
    (∀ t ∈ (s.run (fuel + 1)).tokens, t.kind.isLayout = true) ∨
      ∃ ts s', Nonempty (Step s ts s') ∧ s.run (fuel + 1) = (s'.run fuel).after ts := by
  cases henter : s.enter with
  | error f =>
    unfold enter at henter
    rw [run, henter]
    exact .inl fun _ ht => absurd ht List.not_mem_nil
  | ok p =>
    obtain ⟨margin, s₁⟩ := p
    cases htext : s₁.rest.text with
    | nil =>
      refine .inl fun t ht => ?_
      have hmargin := (enter_layout henter).1
      unfold enter at henter
      rw [run, henter] at ht
      simp only [htext, List.mem_append] at ht
      exact ht.elim (hmargin t) (finish_layout s₁ t)
    | cons c cs =>
      cases hread : s₁.readInLine c with
      | error f =>
        unfold enter at henter
        rw [run, henter]
        simp only [htext, hread]
        exact .inl fun _ ht => absurd ht List.not_mem_nil
      | ok q =>
        have hstep : Step s (margin ++ q.1) q.2 := ⟨margin, s₁, c, cs, q.1, henter, htext, hread, rfl⟩
        exact .inr ⟨_, _, ⟨hstep⟩, run_step hstep fuel⟩

theorem Step.staysInLine (h : Step s ts s') (hwords : ∀ t ∈ ts, t.kind.isLayout = false)
    (hline : s.atLineStart = false) : (ts = [] ∨ ∃ t, ts = [t] ∧ t.Covers s.rest s'.rest) ∧
      s'.atLineStart = false := by
  obtain ⟨c, cs, hc, hread⟩ := h.inLine hline
  refine ⟨(readInLine_took hc hread).tokens, ?_⟩
  rcases readInLine_line hc hread with hsame | ⟨t, rfl, ht⟩
  · rw [hsame, hline]
  · have hword := hwords t List.mem_cons_self
    rw [ht] at hword
    cases hword

theorem enter_inLine (h : s.atLineStart = false) : s.enter = .ok ([], s) := by
  unfold enter
  simp [h]

/-- A word is the last token that a step gives. -/
theorem Step.word {before after : List Token} {x : Token} (h : Step s ts s')
    (hts : ts = before ++ x :: after) (hx : x.kind.isLayout = false) : ∃ s₁,
      s.rest.Reaches s₁.rest ∧ s₁.atLineStart = false ∧ Nonempty (Step s₁ [x] s') ∧ after = [] := by
  obtain ⟨margin, s₁, c, cs, found, henter, hc, hread, rfl⟩ := h
  obtain ⟨hmargin, hinside, -⟩ := enter_layout henter
  have hline := hinside (by simp [hc])
  obtain ⟨pre, hfound⟩ : ∃ pre, found = pre ++ x :: after := by
    rcases List.append_eq_append_iff.mp hts with ⟨a, -, ha⟩ | ⟨a, ha, ha'⟩
    · exact ⟨a, ha⟩
    · cases a with
      | nil => exact ⟨[], ha'.symm⟩
      | cons y a =>
        obtain ⟨rfl, -⟩ := List.cons.inj ha'
        rw [hmargin x (by simp [ha])] at hx
        cases hx
  rcases (readInLine_took hc hread).tokens with rfl | ⟨t, rfl, -⟩
  · simp at hfound
  · cases pre with
    | nil =>
      obtain ⟨rfl, hnil⟩ := List.cons.inj hfound
      exact ⟨s₁, enter_reaches henter, hline,
        ⟨[], s₁, c, cs, [t], enter_inLine hline, hc, hread, rfl⟩, hnil.symm⟩
    | cons y pre => simp at hfound

/-- The place where a word among the tokens of a text is read. -/
theorem run_word {before after : List Token} {x : Token}
    (h : (s.run fuel).tokens = before ++ x :: after) (hx : x.kind.isLayout = false) :
    ∃ s₁ s₂ fuel', s.rest.Reaches s₁.rest ∧ s₁.atLineStart = false ∧ s₂.atLineStart = false ∧
      Nonempty (Step s₁ [x] s₂) ∧ (s₂.run fuel').tokens = after := by
  induction fuel generalizing s before with
  | zero => simp [run] at h
  | succ fuel ih =>
    rcases run_cases s fuel with hlayout | ⟨ts, s', ⟨hstep⟩, hrun⟩
    · rw [hlayout x (by simp [h])] at hx
      cases hx
    · rw [hrun] at h
      have hlater {a : List Token} (ha : (s'.run fuel).tokens = a ++ x :: after) :
          ∃ s₁ s₂ fuel', s.rest.Reaches s₁.rest ∧ s₁.atLineStart = false ∧
            s₂.atLineStart = false ∧ Nonempty (Step s₁ [x] s₂) ∧ (s₂.run fuel').tokens = after := by
        obtain ⟨s₁, s₂, fuel', hr, hfound⟩ := ih ha
        exact ⟨s₁, s₂, fuel', hstep.passes.reaches.trans hr, hfound⟩
      rcases List.append_eq_append_iff.mp h with ⟨a, -, ha⟩ | ⟨a, ha, ha'⟩
      · exact hlater ha
      · cases a with
        | nil => exact hlater (a := []) ha'.symm
        | cons y a =>
          obtain ⟨rfl, rfl⟩ := List.cons.inj ha'
          obtain ⟨s₁, hr, hline, ⟨hread⟩, rfl⟩ := hstep.word ha hx
          exact ⟨s₁, s', fuel, hr, hline, (hread.staysInLine (by simpa using hx) hline).2, ⟨hread⟩, rfl⟩

/-- The words that come next on a line are read one after the other. -/
theorem run_words {after : List Token} (h : (s.run fuel).tokens = ts ++ after)
    (hwords : ∀ t ∈ ts, t.kind.isLayout = false) (hne : ts ≠ []) (hline : s.atLineStart = false) :
    ∃ s₁ s₂, Reads s [] s₁ ∧ Reads s₁ ts s₂ ∧ s₁.atLineStart = false ∧
      (∃ x s', ts.head? = some x ∧ Nonempty (Step s₁ [x] s') ∧ x.start = s₁.rest.offset) ∧
        ts.getLast?.map Token.stop = some s₂.rest.offset := by
  induction fuel generalizing s ts with
  | zero => simp [run, hne] at h
  | succ fuel ih =>
    obtain ⟨x, xs, rfl⟩ := List.exists_cons_of_ne_nil hne
    have hx := hwords x List.mem_cons_self
    rcases run_cases s fuel with hlayout | ⟨found, s', ⟨hstep⟩, hrun⟩
    · rw [hlayout x (by simp [h])] at hx
      cases hx
    · rw [hrun] at h
      obtain ⟨c, cs, hc, hread⟩ := hstep.inLine hline
      rcases (readInLine_took hc hread).tokens with rfl | ⟨t, rfl, hcovers⟩
      · have hline' := (hstep.staysInLine (by simp) hline).2
        obtain ⟨s₁, s₂, hgap, hreads⟩ := ih h hwords hne hline'
        exact ⟨s₁, s₂, .step hstep hgap, hreads⟩
      · obtain ⟨rfl, hlater⟩ := List.cons.inj h
        have hline' := (hstep.staysInLine (by simpa using hx) hline).2
        have hfirst : ∃ x s', (t :: xs).head? = some x ∧ Nonempty (Step s [x] s') ∧
            x.start = s.rest.offset := ⟨t, s', rfl, ⟨hstep⟩, hcovers.start⟩
        cases xs with
        | nil =>
          exact ⟨s, s', .done s, .step hstep (.done s'), hline, hfirst, by simp [hcovers.stop]⟩
        | cons y ys =>
          obtain ⟨s₁, s₂, hgap, hreads, -, -, hlast⟩ := ih hlater
            (fun z hz => hwords z (List.mem_cons_of_mem t hz)) (List.cons_ne_nil y ys) hline'
          exact ⟨s, s₂, .done s, .step hstep (hgap.trans hreads), hline, hfirst, by simpa using hlast⟩

theorem Reads.reaches (h : Reads s ts s') : s.rest.Reaches s'.rest := by
  rcases h.eq_or_passes with rfl | hpasses
  · exact .refl _
  · exact hpasses.reaches

/-- The tokens of a part of a line weigh no more than twice its characters. -/
theorem Reads.load (h : Reads s ts s') (hline : s.atLineStart = false)
    (hwords : ∀ t ∈ ts, t.kind.isLayout = false) :
    Syntax.load (ts.map Token.kind) + 2 * s'.rest.text.length ≤ 2 * s.rest.text.length := by
  induction h with
  | done => simp
  | step first run ih =>
    have hfirst := fun t ht => hwords t (List.mem_append_left _ ht)
    have hlater := ih (first.staysInLine hfirst hline).2
      fun t ht => hwords t (List.mem_append_right _ ht)
    obtain ⟨c, cs, hc, hread⟩ := first.inLine hline
    have hload := readInLine_load hc hread
    simp only [List.map_append, load_append]
    omega

end Reader

open Reader

/-- What a part of a line is read as elsewhere: the same tokens again, or line ends that brackets
around it held. -/
structure Respelled (w : Text) (ks : List TokenKind) (after : Text) : Prop where
  first : ∃ s s' x, s.atLineStart = false ∧ s.rest.text = w ++ after ∧ Nonempty (Step s [x] s') ∧
    ks.head? = some x.kind
  words : ∀ k ∈ ks, k.isLayout = false
  nonempty : w ≠ []
  load : load ks ≤ 2 * w.length
  again : ∀ depth d, depthBehind? depth ks = some d →
    Respells depth d w after ks ∨ Breaks depth w after ks

theorem start_reaches (t : Text) (offset : Nat) :
    Rest.Reaches ⟨t, offset⟩ (Reader.start t offset).rest := by
  unfold Reader.start
  split
  · exact ⟨['\uFEFF'], rfl, rfl⟩
  · exact .refl _

/-- Words behind another one on a line of a text are read again elsewhere. -/
theorem Stream.segment {t : Text} {lineStart : Bool} {before ts after : List Token} {x : Token}
    {start stop : Nat}
    (h : (Stream.ofText t 0 lineStart).tokens = before ++ x :: ts ++ after)
    (hx : x.kind.isLayout = false) (hwords : ∀ y ∈ ts, y.kind.isLayout = false)
    (hstart : ts.head?.map Token.start = some start)
    (hstop : ts.getLast?.map Token.stop = some stop) :
    ∃ ks u, ts.map Token.kind = ks.map TokenKind.softer ∧ Respelled (t.slice start stop) ks u := by
  obtain ⟨before', x', ts', us', htokens, hx', rfl, hwords'⟩ := soften_segment h hx hwords
  have hne : ts' ≠ [] := by
    rintro rfl
    cases hstart
  rw [List.append_assoc, List.cons_append] at htokens
  obtain ⟨s₀, s₁, fuel, hreach₀, -, hline₁, ⟨hstep₀⟩, hlater⟩ := run_word htokens hx'
  obtain ⟨s₂, s₃, hgap, hreads, hline₂, ⟨y, s', hy, hfirst, hhead⟩, hlast⟩ :=
    run_words hlater hwords' hne hline₁
  obtain ⟨-, -, w, hw, htext, hagain⟩ := hreads.again hline₂ hwords' hlast
  have hload := hreads.load hline₂ hwords'
  obtain ⟨pre, hpre, hsize⟩ := (((start_reaches t 0).trans hreach₀).trans
    hstep₀.passes.reaches).trans hgap.reaches
  obtain ⟨w', hw', hsize'⟩ := hreads.reaches
  obtain rfl : w = w' := List.append_cancel_right (htext.symm.trans hw')
  have hslice : t.slice start stop = w := by
    have hstart' : start = Text.size pre := by
      simpa [Token.softer, Function.comp_def, hsize, hy, hhead] using hstart.symm
    have hstop' : stop = Text.size pre + Text.size w := by
      simpa [Token.softer, Function.comp_def, hsize, hsize', hlast] using hstop.symm
    have htext' : t = pre ++ w ++ s₃.rest.text := by
      rw [List.append_assoc, ← hw']
      exact hpre
    rw [hstart', hstop', htext', Text.slice_size]
  refine ⟨ts'.map Token.kind, s₃.rest.text, by simp [Token.softer], ?_⟩
  rw [hslice]
  refine ⟨⟨s₂, s', y, hline₂, htext, hfirst, by simp [hy]⟩, by simpa using hwords', hw, ?_, hagain⟩
  rw [htext, List.length_append] at hload
  omega

end Pagewright.Syntax
