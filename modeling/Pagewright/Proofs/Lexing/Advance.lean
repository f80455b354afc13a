import Mathlib.Data.List.Basic
import Pagewright.Syntax.Stream
import Pagewright.Proofs.Text.Size

namespace Pagewright.Syntax

open Text

namespace Rest

/-- Any character but a carriage return comes next as it is. -/
theorem next_plain {c : Char} {cs : Text} {offset : Nat} (h : c ≠ '\r') :
    next? ⟨c :: cs, offset⟩ = some (c, ⟨cs, offset + c.utf8Size⟩) := by
  unfold next?
  split
  · simp_all
  · rename_i heq
    simp only [Rest.mk.injEq, List.cons.injEq] at heq
    exact absurd heq.1.1 h
  · rename_i heq
    obtain ⟨⟨rfl, rfl⟩, rfl⟩ : (c = _ ∧ cs = _) ∧ offset = _ := by simpa using heq
    simp [h]

/-- `r'` is what is left of `r` after the text `w`. -/
structure Past (r : Rest) (w : Text) (r' : Rest) : Prop where
  text : r.text = w ++ r'.text
  offset : r'.offset = r.offset + size w

/-- `r'` is what is left of `r` after some text. -/
def Reaches (r r' : Rest) : Prop :=
  ∃ w, Past r w r'

/-- `r'` is what is left of `r` after some text that is not empty. -/
def Passes (r r' : Rest) : Prop :=
  ∃ w, w ≠ [] ∧ Past r w r'

theorem Past.refl (r : Rest) : Past r [] r :=
  ⟨rfl, rfl⟩

theorem Past.trans {r r' r'' : Rest} {w w' : Text} (h : Past r w r') (h' : Past r' w' r'') :
    Past r (w ++ w') r'' := by
  constructor
  · rw [h.text, h'.text, List.append_assoc]
  · rw [h'.offset, h.offset, size_append, Nat.add_assoc]

theorem Reaches.refl (r : Rest) : Reaches r r :=
  ⟨[], .refl r⟩

theorem Reaches.trans {r r' r'' : Rest} (h : Reaches r r') (h' : Reaches r' r'') :
    Reaches r r'' := by
  obtain ⟨w, hw⟩ := h
  obtain ⟨w', hw'⟩ := h'
  exact ⟨w ++ w', hw.trans hw'⟩

theorem Passes.reaches {r r' : Rest} (h : Passes r r') : Reaches r r' := by
  obtain ⟨w, -, hw⟩ := h
  exact ⟨w, hw⟩

theorem Passes.trans {r r' r'' : Rest} (h : Passes r r') (h' : Reaches r' r'') :
    Passes r r'' := by
  obtain ⟨w, hn, hw⟩ := h
  obtain ⟨w', hw'⟩ := h'
  exact ⟨w ++ w', by simp [hn], hw.trans hw'⟩

theorem Reaches.passes {r r' r'' : Rest} (h : Reaches r r') (h' : Passes r' r'') :
    Passes r r'' := by
  obtain ⟨w, hw⟩ := h
  obtain ⟨w', hn, hw'⟩ := h'
  exact ⟨w ++ w', by simp [hn], hw.trans hw'⟩

theorem Passes.shorter {r r' : Rest} (h : Passes r r') : r'.text.length < r.text.length := by
  obtain ⟨w, hn, hw⟩ := h
  have hl := List.length_pos_iff.mpr hn
  rw [hw.text, List.length_append]
  omega

theorem Reaches.offset_le {r r' : Rest} (h : Reaches r r') : r.offset ≤ r'.offset := by
  obtain ⟨w, hw⟩ := h
  rw [hw.offset]
  exact Nat.le_add_right _ _

theorem Passes.offset_lt {r r' : Rest} (h : Passes r r') : r.offset < r'.offset := by
  obtain ⟨w, hn, hw⟩ := h
  have hl := List.length_pos_iff.mpr hn
  have hs := length_le_size w
  rw [hw.offset]
  omega

theorem past_skip {w : Text} (t : Text) (offset : Nat) (h : ∀ c ∈ w, IsNarrow c) :
    Past ⟨w ++ t, offset⟩ w (skip ⟨w ++ t, offset⟩ w.length) := by
  constructor <;> simp [skip, size_narrow h]

/-- Narrow characters at the start can be skipped. -/
theorem reaches_skip {r : Rest} {n : Nat} (hn : n ≤ r.text.length)
    (h : ∀ c ∈ r.text.take n, IsNarrow c) : Reaches r (r.skip n) := by
  obtain ⟨t, offset⟩ := r
  have hp := past_skip (t.drop n) offset h
  rw [List.take_append_drop, List.length_take_of_le hn] at hp
  exact ⟨_, hp⟩

theorem passes_skip_one {c : Char} {cs : Text} {offset : Nat} (h : IsNarrow c) :
    Passes ⟨c :: cs, offset⟩ (skip ⟨c :: cs, offset⟩ 1) :=
  ⟨[c], by simp, past_skip cs offset fun d hd => List.mem_singleton.mp hd ▸ h⟩

theorem passes_skip {r : Rest} {n : Nat} (hp : 0 < n) (hn : n ≤ r.text.length)
    (h : ∀ c ∈ r.text.take n, IsNarrow c) : Passes r (r.skip n) := by
  obtain ⟨w, hw⟩ := reaches_skip hn h
  refine ⟨w, ?_, hw⟩
  rintro rfl
  have hl := congrArg List.length hw.text
  simp only [skip, List.nil_append, List.length_drop] at hl
  omega

theorem next_passes {r r' : Rest} {c : Char} (h : r.next? = some (c, r')) : Passes r r' := by
  obtain ⟨t, offset⟩ := r
  unfold next? at h
  split at h
  · simp at h
  · obtain ⟨rfl, rfl⟩ : '\n' = c ∧ _ = r' := by simpa using h
    rename_i cs o heq
    obtain ⟨rfl, rfl⟩ : t = _ ∧ offset = o := by simpa using heq
    exact ⟨['\r', '\n'], by simp, ⟨rfl, rfl⟩⟩
  · rename_i d cs o _ heq
    obtain ⟨rfl, rfl⟩ : t = _ ∧ offset = o := by simpa using heq
    obtain ⟨-, rfl⟩ : _ = c ∧ _ = r' := by simpa using h
    exact ⟨[d], by simp, ⟨rfl, by simp⟩⟩

end Rest

open Rest

/-- Blank lines, comments and indentation are passed over without a token. -/
theorem readMargin_reaches {t : Text} {offset : Nat} {own : Indentation} {comment : Bool}
    {m : Margin} (h : readMargin t offset own comment = .ok m) : Reaches ⟨t, offset⟩ m.rest := by
  have one {c : Char} {cs : Text} {o : Nat} (hc : c.utf8Size = 1) :
      Reaches ⟨c :: cs, o⟩ ⟨cs, o + 1⟩ := ⟨[c], rfl, by simp [hc]⟩
  induction t generalizing offset own comment with
  | nil =>
    obtain rfl : _ = m := by simpa [readMargin] using h
    exact .refl _
  | cons c cs ih =>
    unfold readMargin at h
    split at h
    · rename_i hc
      exact (one (by rcases hc with rfl | rfl <;> rfl)).trans (ih h)
    · split at h
      · exact Reaches.trans ⟨[c], rfl, by simp⟩ (ih h)
      · split at h
        · subst c
          exact (one rfl).trans (ih h)
        · split at h
          · subst c
            split at h
            · simp at h
            · exact (one rfl).trans (ih h)
          · split at h
            · subst c
              exact (one rfl).trans (ih h)
            · split at h
              · subst c
                exact (one rfl).trans (ih h)
              · obtain rfl : _ = m := by simpa using h
                exact .refl _

theorem isNarrow_of_isDigit {c : Char} (h : c.isDigit = true) : IsNarrow c := by
  refine isNarrow_of_lt ?_
  simp only [Char.isDigit, Bool.and_eq_true, decide_eq_true_eq, UInt32.le_iff_toNat_le] at h
  exact Nat.lt_of_le_of_lt h.2 (by decide)

theorem isNarrow_of_isDigitIn {base : Nat} {c : Char} (hb : base ≤ 16)
    (h : isDigitIn base c = true) : IsNarrow c := by
  refine isNarrow_of_lt ?_
  unfold isDigitIn at h
  split at h
  · simp only [Bool.or_eq_true, Bool.and_eq_true, decide_eq_true_eq, Char.isDigit,
      Char.le_def, UInt32.le_iff_toNat_le] at h
    have hc : c.val.toNat ≤ 102 := by
      rcases h with (h | h) | h
      · exact Nat.le_trans h.2 (by decide)
      · exact Nat.le_trans h.2 (by decide)
      · exact Nat.le_trans h.2 (by decide)
    exact Nat.lt_of_le_of_lt hc (by decide)
  · simp only [Bool.and_eq_true, decide_eq_true_eq] at h
    omega

/-- A run of digits and underscores is narrow and lies within the text. -/
theorem digitRun_narrow {isDigit : Char → Bool} (hd : ∀ c, isDigit c = true → IsNarrow c)
    (t : Text) : (digitRun isDigit t).2 ≤ t.length ∧
      ∀ c ∈ t.take (digitRun isDigit t).2, IsNarrow c := by
  induction t with
  | nil => simp [digitRun]
  | cons c cs ih =>
    unfold digitRun
    split
    · rename_i hc
      simpa using ⟨ih.1, hd c hc, ih.2⟩
    · split
      · rename_i hc
        have hu : IsNarrow c := hc.1 ▸ rfl
        simpa using ⟨ih.1, hu, ih.2⟩
      · simp

theorem digitRun_reaches {isDigit : Char → Bool} (hd : ∀ c, isDigit c = true → IsNarrow c)
    (r : Rest) : Reaches r (r.skip (digitRun isDigit r.text).2) :=
  reaches_skip (digitRun_narrow hd r.text).1 (digitRun_narrow hd r.text).2

theorem decimalRun_reaches (r : Rest) : Reaches r (r.skip (digitRun Char.isDigit r.text).2) :=
  digitRun_reaches (fun _ => isNarrow_of_isDigit) r

theorem skip_skip (r : Rest) (m n : Nat) : (r.skip m).skip n = r.skip (m + n) := by
  simp [Rest.skip, List.drop_drop, Nat.add_assoc]

structure Token.Covers (t : Token) (r r' : Rest) : Prop where
  start : t.start = r.offset
  stop : t.stop = r'.offset
  passes : Passes r r'

/-- A number with a base mark covers the mark and its digits. -/
theorem readBased_covers {base : Nat} {r r' : Rest} {t : Token} (hb : base ≤ 16)
    (h : Passes r (r.skip 2)) (ht : readBased base r = .ok (t, r')) : t.Covers r r' := by
  have hr := digitRun_reaches (fun _ => isNarrow_of_isDigitIn hb) (r.skip 2)
  unfold readBased at ht
  generalize hd : digitRun (isDigitIn base) (r.text.drop 2) = d at ht
  obtain ⟨digits, n⟩ := d
  simp only at ht
  split at ht
  · simp at ht
  · obtain ⟨rfl, rfl⟩ : _ = t ∧ _ = r' := by simpa using ht
    refine ⟨rfl, rfl, ?_⟩
    rw [Nat.add_comm, ← skip_skip]
    have hn : (digitRun (isDigitIn base) (r.skip 2).text).2 = n := congrArg Prod.snd hd
    rw [hn] at hr
    exact h.trans hr

/-- An exponent passes over its mark, its sign and its digits, or over the mark alone. -/
theorem readExponent_reaches {r r' : Rest} {e : Option Int} (h : readExponent r = .ok (e, r')) :
    Reaches r r' := by
  obtain ⟨t, offset⟩ := r
  unfold readExponent at h
  split at h
  · rename_i c rest heq
    obtain rfl : t = c :: rest := heq
    split at h
    · obtain ⟨-, rfl⟩ : _ = e ∧ _ = r' := by simpa using h
      exact .refl _
    · rename_i hm
      have hc : IsNarrow c := by
        have hm' : isExponentMark c = true := by simpa using hm
        replace hm' : c = 'e' ∨ c = 'E' := by simpa [isExponentMark] using hm'
        rcases hm' with rfl | rfl <;> rfl
      have h1 : Reaches ⟨c :: rest, offset⟩ (skip ⟨c :: rest, offset⟩ 1) :=
        (passes_skip_one hc).reaches
      split at h
      · simp at h
      · cases rest with
        | nil =>
          obtain ⟨-, rfl⟩ : _ = e ∧ _ = r' := by simpa [Rest.skip] using h
          exact h1
        | cons s rest =>
          have h2 := decimalRun_reaches (skip ⟨c :: s :: rest, offset⟩ 1)
          simp only [show (skip ⟨c :: s :: rest, offset⟩ 1).text = s :: rest from rfl] at h h2
          split at h
          · rename_i hs
            split at h
            · simp at h
            · obtain ⟨-, rfl⟩ : _ = e ∧ _ = r' := by simpa using h
              have hs' : IsNarrow s := by rcases hs with rfl | rfl <;> rfl
              have h3 : Reaches (skip ⟨c :: s :: rest, offset⟩ 1)
                  ((skip ⟨c :: s :: rest, offset⟩ 1).skip 1) :=
                (passes_skip_one hs').reaches
              have h4 := decimalRun_reaches ((skip ⟨c :: s :: rest, offset⟩ 1).skip 1)
              rw [Nat.add_comm _ 1, ← skip_skip]
              exact h1.trans (h3.trans h4)
          · obtain ⟨-, rfl⟩ : _ = e ∧ _ = r' := by simpa using h
            exact h1.trans h2
  · obtain ⟨-, rfl⟩ : _ = e ∧ _ = r' := by simpa using h
    exact .refl _

/-- The mark of an imaginary number belongs to its token. -/
theorem numberToken_covers {r₀ r r' : Rest} {plain : TokenKind} {value : Number.Binary}
    {t : Token} (h : Passes r₀ r) (ht : numberToken r₀.offset plain value r = (t, r')) :
    t.Covers r₀ r' := by
  unfold numberToken at ht
  split at ht
  · rename_i hm
    obtain ⟨rfl, rfl⟩ : _ = t ∧ _ = r' := by simpa using ht
    obtain ⟨text, offset⟩ := r
    cases text with
    | nil => simp at hm
    | cons c cs =>
      have hc : IsNarrow c := by
        have hm' : c = 'j' ∨ c = 'J' := by simpa [isImaginaryMark] using hm
        rcases hm' with rfl | rfl <;> rfl
      exact ⟨rfl, rfl, h.trans (passes_skip_one hc).reaches⟩
  · obtain ⟨rfl, rfl⟩ : _ = t ∧ _ = r' := by simpa using ht
    exact ⟨rfl, rfl, h⟩

theorem decimalRun_passes {c : Char} {cs : Text} {offset : Nat} (h : c.isDigit = true) :
    Passes ⟨c :: cs, offset⟩ (skip ⟨c :: cs, offset⟩ (digitRun Char.isDigit (c :: cs)).2) := by
  have hn := digitRun_narrow (fun _ => isNarrow_of_isDigit) (c :: cs)
  refine passes_skip ?_ hn.1 hn.2
  simp [digitRun, h]

/-- A dot and the digits after it are passed over. -/
theorem fraction_passes {r : Rest} (h : r.text.head? = some '.') :
    Passes r (r.skip ((digitRun Char.isDigit (r.text.drop 1)).2 + 1)) := by
  obtain ⟨t, offset⟩ := r
  cases t with
  | nil => simp at h
  | cons c cs =>
    obtain rfl : c = '.' := by simpa using h
    have h1 : Passes ⟨'.' :: cs, offset⟩ (skip ⟨'.' :: cs, offset⟩ 1) := passes_skip_one rfl
    rw [Nat.add_comm, ← skip_skip]
    exact h1.trans (decimalRun_reaches (skip ⟨'.' :: cs, offset⟩ 1))

/-- A decimal covers the text up to where reading goes on. -/
theorem readDecimal_covers {c : Char} {cs : Text} {offset : Nat} {t : Token} {r' : Rest}
    (hc : c.isDigit = true ∨ c = '.') (h : readDecimal ⟨c :: cs, offset⟩ = .ok (t, r')) :
    t.Covers ⟨c :: cs, offset⟩ r' := by
  have hr := decimalRun_reaches ⟨c :: cs, offset⟩
  have hp : Passes ⟨c :: cs, offset⟩
      (skip ⟨c :: cs, offset⟩ (digitRun Char.isDigit (c :: cs)).2) ∨
      (skip ⟨c :: cs, offset⟩ (digitRun Char.isDigit (c :: cs)).2).text.head? = some '.' := by
    rcases hc with hc | rfl
    · exact .inl (decimalRun_passes hc)
    · exact .inr rfl
  unfold readDecimal at h
  simp only [bind, Except.bind, pure, Except.pure, throw, throwThe, MonadExceptOf.throw] at h hr
  generalize skip ⟨c :: cs, offset⟩ (digitRun Char.isDigit (c :: cs)).2 = after at h hr hp
  split at h
  · split at h
    · rename_i hdot
      split at h
      · simp at h
      · split at h
        · simp at h
        · rename_i v he
          split at h
          · simp at h
          · have hv := readExponent_reaches he
            have h0 := hr.passes ((fraction_passes hdot).trans hv)
            injection h with h
            exact numberToken_covers h0 h
    · rename_i hdot
      have h0 : Passes ⟨c :: cs, offset⟩ after := hp.resolve_right hdot
      split at h
      · simp at h
      · rename_i v he
        split at h
        · simp at h
        · injection h with h
          exact numberToken_covers (h0.trans (readExponent_reaches he)) h
  · rename_i hdot
    have h0 : Passes ⟨c :: cs, offset⟩ after := hp.resolve_right fun hd => hdot (.inl hd)
    split at h
    · injection h with h
      exact numberToken_covers h0 h
    · split at h
      · simp at h
      · obtain ⟨rfl, rfl⟩ : _ = t ∧ _ = r' := by simpa using h
        exact ⟨rfl, rfl, h0⟩

theorem baseOf_eq {mark : Char} {base : Nat} (h : baseOf? mark = some base) :
    base ≤ 16 ∧ IsNarrow mark := by
  unfold baseOf? at h
  split at h
  · rename_i hm
    obtain rfl : 16 = base := by simpa using h
    rcases hm with rfl | rfl <;> exact ⟨by decide, rfl⟩
  · split at h
    · rename_i hm
      obtain rfl : 8 = base := by simpa using h
      rcases hm with rfl | rfl <;> exact ⟨by decide, rfl⟩
    · split at h
      · rename_i hm
        obtain rfl : 2 = base := by simpa using h
        rcases hm with rfl | rfl <;> exact ⟨by decide, rfl⟩
      · simp at h

/-- A number covers the text up to where reading goes on. -/
theorem readNumber_covers {c : Char} {cs : Text} {offset : Nat} {t : Token} {r' : Rest}
    (hc : c.isDigit = true ∨ c = '.') (h : readNumber ⟨c :: cs, offset⟩ = .ok (t, r')) :
    t.Covers ⟨c :: cs, offset⟩ r' := by
  unfold readNumber at h
  split at h
  · rename_i mark cs' heq
    obtain ⟨rfl, rfl⟩ : c = '0' ∧ cs = mark :: cs' := by simpa using heq
    split at h
    · rename_i base hb
      obtain ⟨hbase, hm⟩ := baseOf_eq hb
      refine readBased_covers hbase (passes_skip (by decide) (by simp) ?_) h
      simpa using ⟨show IsNarrow '0' from rfl, hm⟩
    · exact readDecimal_covers hc h
  · exact readDecimal_covers hc h

/-- The body of a literal is passed over up to behind its closing quotes. -/
theorem readLiteralBody_reaches {quote : Char} {tripled : Bool} (hq : IsNarrow quote) {fuel : Nat}
    {r r' : Rest} {content : Text}
    (h : readLiteralBody quote tripled fuel r = .ok (content, r')) : Reaches r r' := by
  induction fuel generalizing r content with
  | zero => simp [readLiteralBody] at h
  | succ fuel ih =>
    unfold readLiteralBody at h
    split at h
    · simp at h
    · rename_i c r₁ hc
      have h1 := (next_passes hc).reaches
      split at h
      · split at h
        · exact h1.trans (ih h)
        · rename_i d r₂ hd
          simp only [bind, Except.bind, pure, Except.pure] at h
          split at h
          · simp at h
          · rename_i v hv
            obtain ⟨-, rfl⟩ : _ = content ∧ _ = r' := by simpa using h
            exact h1.trans ((next_passes hd).reaches.trans (ih hv))
      · split at h
        · simp at h
        · split at h
          · rename_i hend
            obtain ⟨-, rfl⟩ : [] = content ∧ (if tripled then r₁.skip 2 else r₁) = r' := by
              simpa using h
            split
            · rename_i ht
              have hp : [quote, quote].isPrefixOf r₁.text = true := by simpa [ht] using hend.2
              obtain ⟨rest, hrest⟩ := List.isPrefixOf_iff_prefix.mp hp
              refine h1.trans (reaches_skip ?_ ?_)
              · simp [← hrest]
              · simpa [← hrest] using hq
            · exact h1
          · simp only [bind, Except.bind, pure, Except.pure] at h
            split at h
            · simp at h
            · rename_i v hv
              obtain ⟨-, rfl⟩ : _ = content ∧ _ = r' := by simpa using h
              exact h1.trans (ih hv)

theorem isQuote_eq {c : Char} (h : isQuote c = true) : c = '"' ∨ c = '\'' := by
  simpa [isQuote] using h

theorem isNarrow_of_isQuote {c : Char} (h : isQuote c = true) : IsNarrow c := by
  rcases isQuote_eq h with rfl | rfl <;> rfl

theorem isNarrow_of_toLower {c d : Char} (h : c.toLower = d) (hd : d.toNat < 128) :
    IsNarrow c := by
  refine isNarrow_of_lt ?_
  unfold Char.toLower at h
  split at h
  · rename_i hc
    have hc' := hc.2
    have : c.val.toNat ≤ 90 := UInt32.le_iff_toNat_le.mp hc'
    exact Nat.lt_of_le_of_lt this (by decide)
  · exact h ▸ hd

theorem kindOfLetter_narrow {c : Char} {k : LiteralKind × Bool} (h : kindOfLetter? c = some k) :
    IsNarrow c := by
  unfold kindOfLetter? at h
  split at h
  · exact isNarrow_of_toLower ‹_› (by decide)
  · exact isNarrow_of_toLower ‹_› (by decide)
  · exact isNarrow_of_toLower ‹_› (by decide)
  · exact isNarrow_of_toLower ‹_› (by decide)
  · simp at h

theorem kindOfLetters_narrow {c d : Char} {k : LiteralKind × Bool}
    (h : kindOfLetters? c d = some k) : IsNarrow c ∧ IsNarrow d := by
  unfold kindOfLetters? at h
  split at h
  · exact ⟨isNarrow_of_toLower ‹_› (by decide), isNarrow_of_toLower ‹_› (by decide)⟩
  · exact ⟨isNarrow_of_toLower ‹_› (by decide), isNarrow_of_toLower ‹_› (by decide)⟩
  · exact ⟨isNarrow_of_toLower ‹_› (by decide), isNarrow_of_toLower ‹_› (by decide)⟩
  · exact ⟨isNarrow_of_toLower ‹_› (by decide), isNarrow_of_toLower ‹_› (by decide)⟩
  · simp at h

/-- A literal starts with some narrow letters and a quote. -/
theorem literalStart_eq {t : Text} {kind : LiteralKind} {raw : Bool} {letters : Nat}
    (h : literalStart? t = some (kind, raw, letters)) :
    ∃ w quote rest, t = w ++ quote :: rest ∧ w.length = letters ∧ isQuote quote = true ∧
      ∀ c ∈ w, IsNarrow c := by
  unfold literalStart? at h
  split at h
  · simp at h
  · rename_i c cs
    split at h
    · rename_i hq
      obtain ⟨-, -, rfl⟩ : LiteralKind.plain = kind ∧ raw = false ∧ 0 = letters := by
        simpa using h
      exact ⟨[], c, cs, rfl, rfl, hq, by simp⟩
    · split at h
      · simp at h
      · rename_i d ds
        split at h
        · rename_i hq
          obtain ⟨k, hk, he⟩ := Option.map_eq_some_iff.mp h
          obtain ⟨-, -, rfl⟩ : _ = kind ∧ _ = raw ∧ 1 = letters := by simpa using he
          exact ⟨[c], d, ds, rfl, rfl, hq, by simpa using kindOfLetter_narrow hk⟩
        · split at h
          · rename_i hq
            obtain ⟨k, hk, he⟩ := Option.map_eq_some_iff.mp h
            obtain ⟨-, -, rfl⟩ : _ = kind ∧ _ = raw ∧ 2 = letters := by simpa using he
            cases ds with
            | nil => simp at hq
            | cons e es =>
              exact ⟨[c, d], e, es, rfl, rfl, by simpa using hq,
                by simpa using kindOfLetters_narrow hk⟩
          · simp at h

/-- A literal covers its letters, its quotes and what they enclose. -/
theorem readLiteral_covers {kind : LiteralKind} {raw : Bool} {letters : Nat} {r r' : Rest}
    {t : Token} (hl : literalStart? r.text = some (kind, raw, letters))
    (h : readLiteral kind raw letters r = .ok (t, r')) : t.Covers r r' := by
  obtain ⟨text, offset⟩ := r
  obtain ⟨w, quote, rest, hr, rfl, hq, hw⟩ := literalStart_eq hl
  obtain rfl : text = w ++ quote :: rest := hr
  have hn := isNarrow_of_isQuote hq
  have h1 : Reaches ⟨w ++ quote :: rest, offset⟩ (skip ⟨w ++ quote :: rest, offset⟩ w.length) :=
    ⟨w, past_skip _ _ hw⟩
  have hs : skip ⟨w ++ quote :: rest, offset⟩ w.length = ⟨quote :: rest, offset + w.length⟩ := by
    simp [Rest.skip]
  have h2 : Passes ⟨quote :: rest, offset + w.length⟩ (skip ⟨quote :: rest, offset + w.length⟩
      (if [quote, quote, quote].isPrefixOf (quote :: rest) then 3 else 1)) := by
    split
    · rename_i hp
      obtain ⟨more, hmore⟩ := List.isPrefixOf_iff_prefix.mp hp
      obtain ⟨-, rfl⟩ : quote = quote ∧ _ = rest := List.cons.inj hmore
      exact passes_skip (by decide) (by simp) (by simpa using hn)
    · exact passes_skip_one hn
  unfold readLiteral at h
  simp only [hs, List.headD_cons, bind, Except.bind, pure, Except.pure] at h
  rw [hs] at h1
  split at h
  · simp at h
  · rename_i v hv
    obtain ⟨rfl, rfl⟩ : _ = t ∧ _ = r' := by simpa using h
    exact ⟨rfl, rfl, h1.passes (h2.trans (readLiteralBody_reaches hn hv))⟩

theorem isPart_of_isStart {c : Char} (h : Identifier.isStart c = true) :
    Identifier.isPart c = true := by
  unfold Identifier.isStart at h
  unfold Identifier.isPart
  split
  · rename_i hc
    rw [if_pos hc] at h
    simp only [Bool.or_eq_true, Char.isAlphanum] at h ⊢
    rcases h with h | h
    · exact .inl (.inl h)
    · exact .inr h
  · rename_i hc
    rw [if_neg hc] at h
    simp [h]

theorem readName_covers {c : Char} {cs : Text} {offset : Nat}
    (hc : Identifier.isStart c = true) :
    (readName ⟨c :: cs, offset⟩).1.Covers ⟨c :: cs, offset⟩ (readName ⟨c :: cs, offset⟩).2 := by
  have hp := isPart_of_isStart hc
  refine ⟨rfl, rfl, (c :: cs).takeWhile Identifier.isPart, by simp [hp], ?_, rfl⟩
  exact List.takeWhile_append_dropWhile.symm

theorem Operator.text_narrow (o : Operator) : o.text ≠ [] ∧ ∀ c ∈ o.text, IsNarrow c := by
  have h : (!o.text.isEmpty && o.text.all fun c => c.utf8Size = 1) = true := by cases o <;> rfl
  simp only [Bool.and_eq_true, Bool.not_eq_true', List.all_eq_true, decide_eq_true_eq,
    List.isEmpty_eq_false_iff] at h
  exact h

theorem Operator.leading_eq {t rest : Text} {o : Operator}
    (h : Operator.leading? t = some (o, rest)) : t = o.text ++ rest := by
  obtain ⟨a, -, ha⟩ := List.exists_of_findSome?_eq_some h
  obtain ⟨r, hr, he⟩ := Option.map_eq_some_iff.mp ha
  obtain ⟨rfl, rfl⟩ : a = o ∧ r = rest := by simpa using he
  exact (List.append_eq_of_isPrefixOf?_eq_some hr).symm

theorem takeWhile_append_drop (p : Char → Bool) (t : Text) :
    t.takeWhile p ++ t.drop (t.takeWhile p).length = t := by
  conv_rhs => rw [← List.take_append_drop (t.takeWhile p).length t]
  rw [← List.prefix_iff_eq_take.mp (List.takeWhile_prefix p)]

theorem next_ne_none (c : Char) (cs : Text) (offset : Nat) :
    Rest.next? ⟨c :: cs, offset⟩ ≠ none := by
  unfold Rest.next?
  split <;> simp_all

namespace Reader

/-- What reading inside a line leaves: the text passed over gives at most one token. -/
structure Took (s : Reader) (ts : List Token) (s' : Reader) : Prop where
  passes : s.rest.Passes s'.rest
  tokens : ts = [] ∨ ∃ t : Token, ts = [t] ∧ t.Covers s.rest s'.rest
  blocks : s'.blocks = s.blocks

theorem took_nothing {s : Reader} {rest : Rest} (h : s.rest.Passes rest) :
    Took s [] { s with rest } :=
  ⟨h, .inl rfl, rfl⟩

theorem readSymbol_took {s s' : Reader} {c : Char} {cs : Text} {ts : List Token}
    (hc : s.rest.text = c :: cs) (h : s.readSymbol c = .ok (ts, s')) : Took s ts s' := by
  unfold readSymbol at h
  split at h
  · rename_i o text ho
    have hp : Passes s.rest ⟨text, s.rest.offset + o.text.length⟩ := by
      obtain ⟨hn, hw⟩ := o.text_narrow
      exact ⟨o.text, hn, Operator.leading_eq ho, by rw [size_narrow hw]⟩
    have took (depth : Nat) : Took s
        [⟨.operator o, s.rest.offset, s.rest.offset + o.text.length⟩]
        { s with rest := ⟨text, s.rest.offset + o.text.length⟩, depth } :=
      ⟨hp, .inr ⟨_, rfl, rfl, rfl, hp⟩, rfl⟩
    dsimp only at h
    split at h
    · obtain ⟨rfl, rfl⟩ := Prod.mk.inj (Except.ok.inj h)
      exact took _
    · split at h
      · split at h
        · simp at h
        · obtain ⟨rfl, rfl⟩ := Prod.mk.inj (Except.ok.inj h)
          exact took _
      · obtain ⟨rfl, rfl⟩ := Prod.mk.inj (Except.ok.inj h)
        exact took _
  · split at h
    · simp at h
    · split at h
      · obtain ⟨rfl, rfl⟩ := Prod.mk.inj (Except.ok.inj h)
        have hp : Passes s.rest ⟨s.rest.text.drop 1, s.rest.offset + c.utf8Size⟩ :=
          ⟨[c], by simp, by simp [hc], by simp⟩
        exact ⟨hp, .inr ⟨_, rfl, rfl, rfl, hp⟩, rfl⟩
      · simp at h

theorem continueLine_took {s s' : Reader} {cs : Text} {ts : List Token}
    (hc : s.rest.text = '\\' :: cs) (h : s.continueLine = .ok (ts, s')) : Took s ts s' := by
  have h1 : Reaches s.rest (s.rest.skip 1) := by
    refine (passes_skip (by decide) (by simp [hc]) ?_).reaches
    rw [hc]
    exact fun d hd => List.mem_singleton.mp hd ▸ rfl
  unfold continueLine at h
  dsimp only at h
  split at h
  · rename_i r hr
    split at h
    · simp at h
    · obtain ⟨rfl, rfl⟩ := Prod.mk.inj (Except.ok.inj h)
      exact took_nothing (h1.passes (next_passes hr))
  · simp at h

theorem isNarrow_of_isInnerBlank {c : Char} (h : isInnerBlank c = true) : IsNarrow c := by
  have hc : c = ' ' ∨ c = '\t' ∨ c = Char.ofNat 12 := by
    simpa [isInnerBlank, or_assoc] using h
  rcases hc with rfl | rfl | rfl <;> rfl

/-- The token that is read inside a line is the text that was passed over. -/
theorem readInLine_took {s s' : Reader} {c : Char} {cs : Text} {ts : List Token}
    (hc : s.rest.text = c :: cs) (h : s.readInLine c = .ok (ts, s')) : Took s ts s' := by
  have one {t : Token} {rest : Rest} (ht : t.Covers s.rest rest) : Took s [t] { s with rest } :=
    ⟨ht.passes, .inr ⟨t, rfl, ht⟩, rfl⟩
  have hrest : s.rest = ⟨c :: cs, s.rest.offset⟩ := by rw [← hc]
  unfold readInLine at h
  split at h
  · rename_i hl
    simp only [bind, Except.bind, pure, Except.pure] at h
    split at h
    · simp at h
    · rename_i v hv
      obtain ⟨rfl, rfl⟩ := Prod.mk.inj (Except.ok.inj h)
      exact one (readLiteral_covers hl hv)
  · split at h
    · rename_i hstart
      obtain ⟨rfl, rfl⟩ := Prod.mk.inj (Except.ok.inj h)
      rw [hrest]
      exact one (hrest ▸ readName_covers hstart)
    · split at h
      · rename_i hd
        simp only [bind, Except.bind, pure, Except.pure] at h
        split at h
        · simp at h
        · rename_i v hv
          obtain ⟨rfl, rfl⟩ := Prod.mk.inj (Except.ok.inj h)
          rw [hrest] at hv
          exact one (hrest ▸ readNumber_covers (hd.imp_right And.left) hv)
      · split at h
        · subst c
          obtain ⟨rfl, rfl⟩ := Prod.mk.inj (Except.ok.inj h)
          refine took_nothing ⟨_, ?_, ?_, rfl⟩
          · rw [hc]
            exact List.cons_ne_nil _ _
          · exact (takeWhile_append_drop _ _).symm
        · split at h
          · split at h
            · rename_i hn
              rw [hrest] at hn
              exact absurd hn (next_ne_none _ _ _)
            · rename_i rest hn
              have hp := next_passes hn
              split at h
              · obtain ⟨rfl, rfl⟩ := Prod.mk.inj (Except.ok.inj h)
                exact ⟨hp, .inr ⟨_, rfl, rfl, rfl, hp⟩, rfl⟩
              · obtain ⟨rfl, rfl⟩ := Prod.mk.inj (Except.ok.inj h)
                exact took_nothing hp
          · split at h
            · rename_i hb
              obtain ⟨rfl, rfl⟩ := Prod.mk.inj (Except.ok.inj h)
              refine took_nothing (passes_skip ?_ ?_ ?_)
              · simp [hc, hb]
              · exact (List.takeWhile_sublist _).length_le
              · rw [← List.prefix_iff_eq_take.mp (List.takeWhile_prefix _)]
                exact fun d hd => isNarrow_of_isInnerBlank (List.all_eq_true.mp List.all_takeWhile d hd)
            · split at h
              · subst c
                exact continueLine_took hc h
              · exact readSymbol_took hc h

end Reader

end Pagewright.Syntax
