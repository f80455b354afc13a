import Pagewright.Proofs.Lexing.Steps
import Pagewright.Proofs.Number.Signed
import Pagewright.Proofs.Text.Ranges

namespace Pagewright.Syntax

open Text Rest Number

namespace TokenKind

/-- The ends of lines and blocks, which no word stands for. -/
def isLayout : TokenKind → Bool
  | .newline | .indent | .dedent => true
  | _ => false

/-- The texts that a token of a kind is written as. A whole number that is not written in decimal
has the foreign mark of its base. -/
def IsWritten (w : Text) : TokenKind → Prop
  | .name id => w = id
  | .keyword word => w = word.text
  | .operator symbol => w = symbol.text
  | .int n => (cleaned w ≠ [] ∧ (∀ c ∈ cleaned w, c.isDigit = true) ∧ ofDigits (cleaned w) = n) ∨
      ∃ c ∈ w, isForeign c = true
  | .float x => (∃ c ∈ cleaned w, c.isDigit = false) ∧
      ∃ p, decimal? (cleaned w) = some p ∧ double.ofDecimal false p.1 p.2 = x
  | .imaginary _ | .literal _ => ∃ c ∈ w, isForeign c = true
  | .newline | .indent | .dedent => True

end TokenKind

theorem past_take {r : Rest} {n : Nat} (hn : n ≤ r.text.length)
    (h : ∀ c ∈ r.text.take n, IsNarrow c) : Past r (r.text.take n) (r.skip n) := by
  obtain ⟨t, offset⟩ := r
  have hp := past_skip (t.drop n) offset h
  rwa [List.take_append_drop, List.length_take_of_le hn] at hp

/-- A run of digits is passed over. -/
theorem past_digits (r : Rest) : Past r (r.text.take (digitRun Char.isDigit r.text).2)
    (r.skip (digitRun Char.isDigit r.text).2) :=
  past_take (digitRun_narrow (fun _ => isNarrow_of_isDigit) _).1
    (digitRun_narrow (fun _ => isNarrow_of_isDigit) _).2

theorem isDigit_range {c : Char} (h : c.isDigit = true) : 48 ≤ c.toNat ∧ c.toNat < 58 := by
  simp only [Char.isDigit, Bool.and_eq_true, decide_eq_true_eq, UInt32.le_iff_toNat_le] at h
  exact ⟨h.1, Nat.lt_succ_of_le h.2⟩

theorem not_blank_digit {c : Char} (h : c.isDigit = true) : isBlank c = false := by
  have hc := isDigit_range h
  simp only [isBlank, Bool.or_eq_false_iff, Bool.and_eq_false_iff, decide_eq_false_iff_not,
    beq_eq_false_iff_ne]
  omega

/-- The digits of a run are what is left of it without its underscores. -/
theorem cleaned_digits (t : Text) :
    cleaned (t.take (digitRun Char.isDigit t).2) = (digitRun Char.isDigit t).1 := by
  induction t with
  | nil => rfl
  | cons c cs ih =>
    unfold digitRun
    split
    · rename_i hc
      have hne : c ≠ '_' := by
        rintro rfl
        exact absurd hc (by decide)
      simpa [cleaned, hne, not_blank_digit hc] using ih
    · split
      · rename_i hc
        simpa [cleaned, hc.1] using ih
      · rfl

theorem digitRun_isDigit {t : Text} {c : Char} (h : c ∈ (digitRun Char.isDigit t).1) :
    c.isDigit = true := by
  induction t with
  | nil => cases h
  | cons d ds ih =>
    unfold digitRun at h
    split at h
    · rename_i hd
      rcases List.mem_cons.mp h with rfl | h
      · exact hd
      · exact ih h
    · split at h
      · exact ih h
      · cases h

theorem digitValue_eq {c : Char} (h : c.isDigit = true) : digitValue c = c.toNat - 48 := by
  simp [digitValue, (isDigit_range h).2]

theorem valueIn_digits {digits : Text} (h : ∀ c ∈ digits, c.isDigit = true) :
    valueIn 10 digits = ofDigits digits := by
  unfold valueIn ofDigits
  refine List.foldl_ext _ _ _ fun n c hc => ?_
  rw [digitValue_eq (h c hc)]

/-- The run of digits at the start of a text, as a number. -/
theorem ofDigits_run (t : Text) :
    valueIn 10 (digitRun Char.isDigit t).1 = ofDigits (digitRun Char.isDigit t).1 :=
  valueIn_digits fun _ => digitRun_isDigit

/-- A run of digits behind a sign is a whole number. -/
theorem whole?_run {sign t : Text} {negative : Bool} {n : Int}
    (hs : readSign (sign ++ (digitRun Char.isDigit t).1) =
      (negative, (digitRun Char.isDigit t).1))
    (h : (if (digitRun Char.isDigit t).1.isEmpty then none
      else some (if negative then -(valueIn 10 (digitRun Char.isDigit t).1 : Int)
        else valueIn 10 (digitRun Char.isDigit t).1)) = some n) :
    whole? (sign ++ (digitRun Char.isDigit t).1) = some n := by
  split at h
  · cases h
  · rename_i hne
    have hdigits : isWhole (digitRun Char.isDigit t).1 = true :=
      isWhole_iff.mpr ⟨by simpa using hne, fun _ => digitRun_isDigit⟩
    rw [whole?_eq, hs, if_pos hdigits, ← ofDigits_run, h]

theorem readSign_run (t : Text) :
    readSign (digitRun Char.isDigit t).1 = (false, (digitRun Char.isDigit t).1) := by
  cases hd : (digitRun Char.isDigit t).1 with
  | nil => rfl
  | cons c cs => exact readSign_digit (digitRun_isDigit (t := t) (by rw [hd]; simp))

/-- The digits of an exponent, with a sign or without one, are read as they are written. -/
theorem past_exponent {s : Char} {rest : Text} {offset : Nat} {e : Int} {r' : Rest}
    (h : (if s = '+' ∨ s = '-' then
        if rest.head? = some '_' then (.error ⟨.strayUnderscore, offset⟩ : Except Fault _)
        else
          .ok (if (digitRun Char.isDigit rest).1.isEmpty then none
            else some (if s = '-' then -(valueIn 10 (digitRun Char.isDigit rest).1 : Int)
              else valueIn 10 (digitRun Char.isDigit rest).1),
            skip ⟨s :: rest, offset⟩ ((digitRun Char.isDigit rest).2 + 1))
      else
        .ok (if (digitRun Char.isDigit (s :: rest)).1.isEmpty then none
          else some (valueIn 10 (digitRun Char.isDigit (s :: rest)).1 : Int),
          skip ⟨s :: rest, offset⟩ (digitRun Char.isDigit (s :: rest)).2)) = .ok (some e, r')) :
    ∃ w, Past ⟨s :: rest, offset⟩ w r' ∧ whole? (cleaned w) = some e := by
  split at h
  · rename_i hs
    split at h
    · cases h
    · obtain ⟨he, rfl⟩ := Prod.mk.inj (Except.ok.inj h)
      have h1 : Past ⟨s :: rest, offset⟩ [s] ⟨rest, offset + 1⟩ :=
        ⟨rfl, by rcases hs with rfl | rfl <;> rfl⟩
      have h2 := h1.trans (past_digits ⟨rest, offset + 1⟩)
      have hclean (w : Text) : cleaned ([s] ++ w) = [s] ++ cleaned w := by
        rcases hs with rfl | rfl <;> rfl
      have hrest : skip ⟨rest, offset + 1⟩ (digitRun Char.isDigit rest).2 =
          skip ⟨s :: rest, offset⟩ ((digitRun Char.isDigit rest).2 + 1) := by
        simp [Rest.skip]
        omega
      refine ⟨_, hrest ▸ h2, ?_⟩
      rw [hclean, cleaned_digits]
      rcases hs with rfl | rfl
      · exact whole?_run (readSign_plus _) he
      · exact whole?_run (readSign_minus _) he
  · obtain ⟨he, rfl⟩ := Prod.mk.inj (Except.ok.inj h)
    refine ⟨_, past_digits ⟨s :: rest, offset⟩, ?_⟩
    rw [cleaned_digits]
    have hsign : readSign ([] ++ (digitRun Char.isDigit (s :: rest)).1) = _ := readSign_run _
    exact whole?_run hsign he

/-- The exponent of a number is read as it is written. -/
theorem readExponent_written {r r' : Rest} {e : Int} (h : readExponent r = .ok (some e, r')) :
    ∃ w, Past r w r' ∧ exponent? (cleaned w) = some e ∧
      (∀ c ∈ (cleaned w).head?, c.isDigit = false ∧ c ≠ '.') ∧
      (r.text.head?.any isExponentMark = true → cleaned w ≠ []) := by
  obtain ⟨t, offset⟩ := r
  cases t with
  | nil =>
    obtain ⟨he, rfl⟩ := Prod.mk.inj (Except.ok.inj h)
    exact ⟨[], .refl _, he, by simp [cleaned], by simp⟩
  | cons m rest =>
    by_cases hm : isExponentMark m = true
    · have hmark : m = 'e' ∨ m = 'E' := by
        simpa [isExponentMark, ← or_iff_not_imp_left] using hm
      have hclean (w : Text) : cleaned (m :: w) = m :: cleaned w := by
        rcases hmark with rfl | rfl <;> rfl
      unfold readExponent at h
      simp only [hm, Bool.not_true, Bool.false_eq_true, if_false] at h
      split at h
      · cases h
      · cases rest with
        | nil => cases h
        | cons s rest =>
          obtain ⟨w, hw, hwhole⟩ := past_exponent h
          have h1 : Past ⟨m :: s :: rest, offset⟩ [m] ⟨s :: rest, offset + 1⟩ :=
            ⟨rfl, by rcases hmark with rfl | rfl <;> rfl⟩
          refine ⟨_, h1.trans hw, ?_, ?_, fun _ => by simp [hclean]⟩
          · rw [List.singleton_append, hclean, ← hwhole]
            rcases hmark with rfl | rfl <;> rfl
          · intro c hc
            obtain rfl : m = c := by simpa [hclean] using hc
            rcases hmark with rfl | rfl <;> decide
    · have hnothing : readExponent ⟨m :: rest, offset⟩ = .ok (some 0, ⟨m :: rest, offset⟩) := by
        simp [readExponent, hm]
      rw [hnothing] at h
      obtain ⟨he, rfl⟩ := Prod.mk.inj (Except.ok.inj h)
      exact ⟨[], .refl _, he, by simp [cleaned], by simp [hm]⟩

/-- A number that may be imaginary: its mark is foreign. -/
theorem numberToken_written {r₀ r r' : Rest} {plain : TokenKind} {value : Number.Binary}
    {t : Token} {w : Text} (hw : Past r₀ w r) (hplain : plain.IsWritten w)
    (h : numberToken r₀.offset plain value r = (t, r')) :
    ∃ w', Past r₀ w' r' ∧ t.kind.IsWritten w' := by
  unfold numberToken at h
  split at h
  · rename_i hm
    obtain ⟨rfl, rfl⟩ := Prod.mk.inj h
    obtain ⟨text, offset⟩ := r
    cases text with
    | nil => cases hm
    | cons c cs =>
      have hc : c = 'j' ∨ c = 'J' := by simpa [isImaginaryMark] using hm
      have hmark : Past ⟨c :: cs, offset⟩ [c] (skip ⟨c :: cs, offset⟩ 1) :=
        ⟨rfl, by rcases hc with rfl | rfl <;> rfl⟩
      refine ⟨_, hw.trans hmark, c, by simp, ?_⟩
      rcases hc with rfl | rfl <;> decide
  · obtain ⟨rfl, rfl⟩ := Prod.mk.inj h
    exact ⟨w, hw, hplain⟩

theorem digitRun_ne_nil {t : Text} (h : t.head?.any Char.isDigit = true) :
    (digitRun Char.isDigit t).1 ≠ [] := by
  cases t with
  | nil => cases h
  | cons c cs =>
    replace h : c.isDigit = true := by simpa using h
    simp [digitRun, h]

/-- A point and the digits behind it. -/
theorem past_point {r : Rest} (h : r.text.head? = some '.') :
    ∃ w, Past r w (r.skip ((digitRun Char.isDigit (r.text.drop 1)).2 + 1)) ∧
      cleaned w = '.' :: (digitRun Char.isDigit (r.text.drop 1)).1 := by
  obtain ⟨t, offset⟩ := r
  cases t with
  | nil => cases h
  | cons c cs =>
    obtain rfl : c = '.' := by simpa using h
    have h1 : Past ⟨'.' :: cs, offset⟩ ['.'] (skip ⟨'.' :: cs, offset⟩ 1) := ⟨rfl, rfl⟩
    have h2 := h1.trans (past_digits (skip ⟨'.' :: cs, offset⟩ 1))
    rw [skip_skip, Nat.add_comm] at h2
    refine ⟨_, h2, ?_⟩
    rw [cleaned_append]
    exact congrArg _ (cleaned_digits cs)

theorem head?_of_atExponent {t : Text} (h : atExponent t = true) :
    t.head?.any isExponentMark = true := by
  unfold atExponent at h
  split at h
  · simp only [Bool.and_eq_true] at h
    simpa using h.1
  · cases h

/-- A number in base ten is read as it is written. -/
theorem readDecimal_written {r r' : Rest} {t : Token}
    (hr : r.text.head?.any Char.isDigit = true ∨
      r.text.head? = some '.' ∧ (r.text.drop 1).head?.any Char.isDigit = true)
    (h : readDecimal r = .ok (t, r')) : ∃ w, Past r w r' ∧ t.kind.IsWritten w := by
  have hpast := past_digits r
  have hclean := cleaned_digits r.text
  have hdigits : ∀ c ∈ (digitRun Char.isDigit r.text).1, c.isDigit = true :=
    fun _ => digitRun_isDigit
  -- Without a digit at the start the point is there, with a digit behind it.
  have hstart : (digitRun Char.isDigit r.text).1 ≠ [] ∨
      (r.skip (digitRun Char.isDigit r.text).2).text.head? = some '.' ∧
      (digitRun Char.isDigit ((r.skip (digitRun Char.isDigit r.text).2).text.drop 1)).1 ≠ [] := by
    rcases hr with hr | ⟨hdot, hr⟩
    · exact .inl (digitRun_ne_nil hr)
    · obtain ⟨text, offset⟩ := r
      cases text with
      | nil => cases hdot
      | cons c cs =>
        obtain rfl : c = '.' := by simpa using hdot
        exact .inr ⟨rfl, digitRun_ne_nil hr⟩
  unfold readDecimal at h
  simp only [bind, Except.bind, pure, Except.pure, throw, throwThe, MonadExceptOf.throw] at h
  generalize digitRun Char.isDigit r.text = run at *
  obtain ⟨whole, n⟩ := run
  generalize r.skip n = after at *
  generalize r.text.take n = w at *
  simp only at hpast hclean hdigits hstart h
  split at h
  · split at h
    · rename_i hdot
      obtain ⟨point, hpoint, hplaces⟩ := past_point hdot
      split at h
      · cases h
      · split at h
        · cases h
        · rename_i v hv
          obtain ⟨e?, after'⟩ := v
          cases e? with
          | none => cases h
          | some e =>
            obtain ⟨x, hx, he, hend, -⟩ := readExponent_written hv
            have hw : cleaned (w ++ (point ++ x)) =
                whole ++ '.' :: ((digitRun Char.isDigit (after.text.drop 1)).1 ++ cleaned x) := by
              simp [cleaned_append, hclean, hplaces]
            have hfloat : (TokenKind.float (double.ofDecimal false
                (valueIn 10 (whole ++ (digitRun Char.isDigit (after.text.drop 1)).1))
                (e - (digitRun Char.isDigit (after.text.drop 1)).1.length))).IsWritten
                  (w ++ (point ++ x)) := by
              have hp := decimal?_point hdigits (fun _ => digitRun_isDigit)
                (hstart.imp_right And.right) he fun c hc => (hend c hc).1
              refine ⟨⟨'.', by simp [hw], by decide⟩, _, hw ▸ hp, ?_⟩
              rw [valueIn_digits]
              intro c hc
              exact (List.mem_append.mp hc).elim (hdigits c) digitRun_isDigit
            exact numberToken_written (hpast.trans (hpoint.trans hx)) hfloat (Except.ok.inj h)
    · rename_i hexp hdot
      have hne : whole ≠ [] := hstart.resolve_right fun hs => hdot hs.1
      split at h
      · cases h
      · rename_i v hv
        obtain ⟨e?, after'⟩ := v
        cases e? with
        | none => cases h
        | some e =>
          obtain ⟨x, hx, he, hend, hmark⟩ := readExponent_written hv
          have hw : cleaned (w ++ x) = whole ++ cleaned x := by rw [cleaned_append, hclean]
          have hfloat : (TokenKind.float (double.ofDecimal false (valueIn 10 (whole ++ []))
              (e - ([] : Text).length))).IsWritten (w ++ x) := by
            refine ⟨?_, _, hw ▸ decimal?_plain hdigits hne he hend, ?_⟩
            · cases hc : cleaned x with
              | nil => exact absurd hc (hmark (head?_of_atExponent (hexp.resolve_left hdot)))
              | cons c cs => exact ⟨c, by simp [hw, hc], (hend c (by simp [hc])).1⟩
            · rw [List.append_nil, valueIn_digits hdigits]
              simp
          exact numberToken_written (hpast.trans hx) hfloat (Except.ok.inj h)
  · rename_i hnot
    have hne : whole ≠ [] := hstart.resolve_right fun hs => hnot (.inl hs.1)
    have hint : (TokenKind.int (valueIn 10 whole)).IsWritten w := by
      refine .inl ⟨by rwa [hclean], by rwa [hclean], ?_⟩
      rw [hclean, valueIn_digits hdigits]
    split at h
    · exact numberToken_written hpast hint (Except.ok.inj h)
    · split at h
      · cases h
      · obtain ⟨rfl, rfl⟩ := Prod.mk.inj (Except.ok.inj h)
        exact ⟨w, hpast, hint⟩

/-- A text that is passed over holds what it starts with, as far as the offset comes. -/
theorem mem_past {r r' : Rest} {w s : Text} {c : Char} {rest : Text} (h : Past r w r')
    (hr : r.text = s ++ c :: rest) (hle : r.offset + size s + c.utf8Size ≤ r'.offset) : c ∈ w := by
  have htext := h.text
  rw [hr, show s ++ c :: rest = (s ++ [c]) ++ rest by simp] at htext
  obtain ⟨v, rfl, -⟩ := append_eq_of_size_le htext (by
    have hoffset := h.offset
    simp only [size_append, size_cons, size_nil]
    omega)
  simp

theorem baseOf_foreign {mark : Char} {base : Nat} (h : baseOf? mark = some base) :
    isForeign mark = true ∧ mark.utf8Size = 1 := by
  unfold baseOf? at h
  split at h
  · rename_i hm
    rcases hm with rfl | rfl <;> decide
  · split at h
    · rename_i hm
      rcases hm with rfl | rfl <;> decide
    · split at h
      · rename_i hm
        rcases hm with rfl | rfl <;> decide
      · cases h

/-- A number is read as it is written. -/
theorem readNumber_written {r r' : Rest} {t : Token}
    (hr : r.text.head?.any Char.isDigit = true ∨
      r.text.head? = some '.' ∧ (r.text.drop 1).head?.any Char.isDigit = true)
    (h : readNumber r = .ok (t, r')) : ∃ w, Past r w r' ∧ t.kind.IsWritten w := by
  have hcovers : ∃ c cs, r.text = c :: cs ∧ (c.isDigit = true ∨ c = '.') := by
    cases ht : r.text with
    | nil => simp [ht] at hr
    | cons c cs => exact ⟨c, cs, rfl, by simpa [ht] using hr.imp_right And.left⟩
  obtain ⟨c, cs, hc, hstart⟩ := hcovers
  obtain ⟨t', offset⟩ := r
  obtain rfl : t' = c :: cs := hc
  have hp := (readNumber_covers hstart h).passes
  unfold readNumber at h
  split at h
  · rename_i mark cs' heq
    obtain ⟨rfl, rfl⟩ := List.cons.inj heq
    split at h
    · rename_i base hb
      obtain ⟨w, -, hw⟩ := hp
      obtain ⟨hforeign, hsize⟩ := baseOf_foreign hb
      unfold readBased at h
      simp only at h
      split at h
      · cases h
      · obtain ⟨rfl, rfl⟩ := Prod.mk.inj (Except.ok.inj h)
        refine ⟨w, hw, .inr ⟨mark, mem_past (s := ['0']) hw rfl ?_, hforeign⟩⟩
        simp only [Rest.skip, size_cons, size_nil, hsize, show ('0').utf8Size = 1 from rfl]
        omega
    · exact readDecimal_written hr h
  · exact readDecimal_written hr h

/-- A literal holds a quote. -/
theorem readLiteral_written {kind : LiteralKind} {raw : Bool} {letters : Nat} {r r' : Rest}
    {t : Token} (hl : literalStart? r.text = some (kind, raw, letters))
    (h : readLiteral kind raw letters r = .ok (t, r')) : ∃ w, Past r w r' ∧ t.kind.IsWritten w := by
  obtain ⟨w, -, hw⟩ := (readLiteral_covers hl h).passes
  obtain ⟨s, quote, rest, hr, hlength, hq, hs⟩ := literalStart_eq hl
  have hn := isNarrow_of_isQuote hq
  have hquote : isForeign quote = true := by
    rcases isQuote_eq hq with rfl | rfl <;> decide
  have hskip : (r.skip letters).text = quote :: rest := by simp [Rest.skip, hr, ← hlength]
  unfold readLiteral at h
  simp only [hskip, List.headD_cons, bind, Except.bind, pure, Except.pure] at h
  split at h
  · cases h
  · rename_i v hv
    obtain ⟨rfl, rfl⟩ := Prod.mk.inj (Except.ok.inj h)
    refine ⟨w, hw, quote, mem_past hw hr ?_, hquote⟩
    have hle := (readLiteralBody_reaches hn hv).offset_le
    rw [size_narrow hs, hlength, hn]
    refine Nat.le_trans ?_ hle
    simp only [Rest.skip]
    split <;> omega

theorem readName_written (c : Char) (cs : Text) (offset : Nat) :
    ∃ w, Past ⟨c :: cs, offset⟩ w (readName ⟨c :: cs, offset⟩).2 ∧
      (readName ⟨c :: cs, offset⟩).1.kind.IsWritten w := by
  refine ⟨(c :: cs).takeWhile Identifier.isPart, ⟨?_, rfl⟩, ?_⟩
  · exact List.takeWhile_append_dropWhile.symm
  · simp only [readName]
    cases hk : Keyword.ofText? ((c :: cs).takeWhile Identifier.isPart) with
    | none => rfl
    | some word =>
      have hword := List.find?_some hk
      exact (of_decide_eq_true hword).symm

end Pagewright.Syntax
