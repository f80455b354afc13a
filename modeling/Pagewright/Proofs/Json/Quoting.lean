import Pagewright.Json.Reader
import Pagewright.Json.Script
import Pagewright.Proofs.Text.Closing

namespace Pagewright.Json

/-- What a character is written as inside quotes: a backslash and a letter, a backslash and its
number, or itself. -/
theorem escapeChar_cases (c : Char) :
    (∃ e, escapeChar c = ['\\', e] ∧ simpleEscape? e = some c ∧ e ≠ '/') ∨
      (c.toNat < 32 ∧ escapeChar c =
        ['\\', 'u', '0', '0', hexDigit (c.toNat / 16), hexDigit (c.toNat % 16)]) ∨
      (c ≠ '"' ∧ c ≠ '\\' ∧ ¬c.toNat < 32 ∧ escapeChar c = [c]) := by
  by_cases h : c ∈ ['"', '\\', '\n', '\r', '\t', Char.ofNat 8, Char.ofNat 12]
  · simp only [List.mem_cons, List.not_mem_nil, or_false] at h
    rcases h with rfl | rfl | rfl | rfl | rfl | rfl | rfl <;>
      exact .inl ⟨_, rfl, rfl, by decide⟩
  · simp only [List.mem_cons, List.not_mem_nil, or_false, not_or] at h
    obtain ⟨hq, hb, hn, hr, ht, hback, hfeed⟩ := h
    rw [escapeChar, if_neg hq, if_neg hb, if_neg hn, if_neg hr, if_neg ht, if_neg hback,
      if_neg hfeed]
    by_cases hc : c.toNat < 32
    · exact .inr (.inl ⟨hc, if_pos hc⟩)
    · exact .inr (.inr ⟨hq, hb, hc, if_neg hc⟩)

/-- Quotes, backslashes and control characters apart, a character stands for itself. -/
theorem escapeChar_plain {c : Char} (hq : c ≠ '"') (hb : c ≠ '\\') (hc : ¬c.toNat < 32) :
    escapeChar c = [c] := by
  have hcontrols : c ≠ '\n' ∧ c ≠ '\r' ∧ c ≠ '\t' ∧ c ≠ Char.ofNat 8 ∧ c ≠ Char.ofNat 12 := by
    refine ⟨?_, ?_, ?_, ?_, ?_⟩
    all_goals
      rintro rfl
      simp at hc
  simp [escapeChar, hq, hb, hc, hcontrols]

theorem hexDigit_ne {n : Nat} (h : n < 16) : hexDigit n ≠ '<' ∧ hexDigit n ≠ '/' := by
  revert n
  decide

theorem ne_of_escaped {c d : Char} {ds : Text} (h : escapeChar c = '\\' :: ds)
    (hd : escapeChar d = [d]) (hb : d ≠ '\\') : c ≠ d := by
  intro hc
  rw [hc, hd] at h
  exact hb (List.cons.inj h).1

/-- No escape brings `<` or `/` about. -/
theorem escapeChar_spares : Text.Spares escapeChar := by
  intro c
  rcases escapeChar_cases c with ⟨e, he, hc, hs⟩ | ⟨hc, he⟩ | ⟨-, -, -, he⟩
  · have hl : e ≠ '<' := by
      intro hl
      rw [hl] at hc
      cases hc
    refine .inr ⟨ne_of_escaped he rfl (by decide), ne_of_escaped he rfl (by decide), ?_⟩
    simp [he, hl.symm, hs.symm]
  · have hhigh := hexDigit_ne (n := c.toNat / 16) (by omega)
    have hlow := hexDigit_ne (n := c.toNat % 16) (by omega)
    refine .inr ⟨ne_of_escaped he rfl (by decide), ne_of_escaped he rfl (by decide), ?_⟩
    simp [he, hhigh.1.symm, hhigh.2.symm, hlow.1.symm, hlow.2.symm]
  · exact .inl he

def inScript : Text → Text
  | [] => []
  | '<' :: '/' :: cs => '<' :: '\\' :: '/' :: inScript cs
  | c :: cs => escapeChar c ++ inScript cs

/-- Breaking up `</` after the escaping acts on the text that is escaped, not on escapes. -/
theorem replace_escaped (t : Text) :
    Text.replace (t.flatMap escapeChar ++ ['"']) "</" "<\\/" = inScript t ++ ['"'] := by
  fun_induction inScript t with
  | case1 => rfl
  | case2 cs ih =>
    have htarget : Text.replace ("</" ++ (cs.flatMap escapeChar ++ ['"'])) "</" "<\\/" =
        "<\\/" ++ Text.replace (cs.flatMap escapeChar ++ ['"']) "</" "<\\/" :=
      Text.replace_target _
    exact htarget.trans (congrArg ("<\\/".toList ++ ·) ih)
  | case3 c cs hc ih =>
    rw [List.flatMap_cons, List.append_assoc, List.append_assoc, ← ih]
    rcases escapeChar_spares c with he | ⟨-, -, -, hm, -⟩
    · have hne : ¬['<', '/'] <+: c :: (cs.flatMap escapeChar ++ ['"']) := by
        intro hp
        obtain ⟨hl, u, hu⟩ := List.cons_prefix_cons.mp hp
        have hhead : (cs.flatMap escapeChar ++ ['"']).head? = some '/' := by
          rw [← hu]
          rfl
        rw [List.head?_append, Option.or_eq_some_iff, escapeChar_spares.head?] at hhead
        rcases hhead with hcs | ⟨-, hquote⟩
        · obtain ⟨ds, hds⟩ := List.head?_eq_some_iff.mp hcs
          exact hc ds hl.symm hds
        · exact absurd hquote (by decide)
      rw [he]
      exact Text.replace_other hne
    · exact Text.replace_append hm _

/-- The literal of a string. -/
theorem script_string (t : Text) : script (.string t) = '"' :: inScript t ++ ['"'] := by
  have hq : ¬['<', '/'] <+: '"' :: (t.flatMap escapeChar ++ ['"']) := by
    intro h
    exact absurd (List.cons_prefix_cons.mp h).1 (by decide)
  rw [script, quote, List.cons_append, List.cons_append, ← replace_escaped]
  exact Text.replace_other hq

theorem hexDigit_value {n : Nat} (h : n < 16) : hexValue? (hexDigit n) = some n := by
  revert n
  decide

/-- A control character is read back from its number. -/
theorem escapedUnit?_control {c : Char} (h : c.toNat < 32) (t : Text) :
    escapedUnit? ('0' :: '0' :: hexDigit (c.toNat / 16) :: hexDigit (c.toNat % 16) :: t) =
      some (c, t) := by
  have hunit : hexUnit? ('0' :: '0' :: hexDigit (c.toNat / 16) :: hexDigit (c.toNat % 16) :: t) =
      some (c.toNat, t) := by
    have hzero : hexValue? '0' = some 0 := by decide
    simp only [hexUnit?, hzero, hexDigit_value (n := c.toNat / 16) (by omega),
      hexDigit_value (n := c.toNat % 16) (by omega), bind, Option.bind, Option.some.injEq,
      Prod.mk.injEq, and_true]
    omega
  simp only [escapedUnit?, hunit, bind, Option.bind]
  rw [if_neg (by omega), if_neg (by omega), Char.ofNat_toNat]

theorem readString_simple {c e : Char} (h : simpleEscape? e = some c) (n : Nat) (t : Text) :
    readString (n + 1) ('\\' :: e :: t) = (readString n t).map fun p => (c :: p.1, p.2) := by
  have hu : e ≠ 'u' := by
    rintro rfl
    cases h
  rw [readString.eq_def]
  simp only [if_neg (show '\\' ≠ '"' by decide), if_pos, h]
  cases readString n t <;> rfl

theorem readString_plain {c : Char} (hq : c ≠ '"') (hb : c ≠ '\\') (hc : ¬c.toNat < 32) (n : Nat)
    (t : Text) :
    readString (n + 1) (c :: t) = (readString n t).map fun p => (c :: p.1, p.2) := by
  rw [readString.eq_def]
  simp only [if_neg hq, if_neg hb, if_neg hc]
  cases readString n t <;> rfl

/-- An escaped character is read back, whatever follows it. -/
theorem readString_escapeChar (c : Char) (n : Nat) (t : Text) :
    readString (n + 1) (escapeChar c ++ t) = (readString n t).map fun p => (c :: p.1, p.2) := by
  rcases escapeChar_cases c with ⟨e, he, hc, -⟩ | ⟨hc, he⟩ | ⟨hq, hb, hc, he⟩
  · rw [he]
    exact readString_simple hc n t
  · have hu := escapedUnit?_control hc t
    rw [he]
    simp only [List.cons_append, List.nil_append]
    rw [readString, if_neg (by decide), if_pos rfl, hu]
    simp only [bind, Option.bind]
    cases readString n t <;> rfl
  · rw [he]
    exact readString_plain hq hb hc n t

theorem readString_quoted {t : Text} {n : Nat} (h : t.length < n) (rest : Text) :
    readString n (t.flatMap escapeChar ++ '"' :: rest) = some (t, rest) := by
  induction t generalizing n with
  | nil =>
    obtain ⟨m, rfl⟩ := Nat.exists_eq_succ_of_ne_zero (Nat.ne_of_gt h)
    rfl
  | cons c cs ih =>
    obtain ⟨m, rfl⟩ := Nat.exists_eq_succ_of_ne_zero (Nat.ne_of_gt (Nat.zero_lt_of_lt h))
    rw [List.flatMap_cons, List.append_assoc, readString_escapeChar,
      ih (Nat.lt_of_succ_lt_succ h)]
    rfl

/-- A text is read back from what stands in the quotes of a literal. -/
theorem readString_inScript {t : Text} {n : Nat} (h : t.length < n) (rest : Text) :
    readString n (inScript t ++ '"' :: rest) = some (t, rest) := by
  fun_induction inScript t generalizing n with
  | case1 =>
    obtain ⟨m, rfl⟩ := Nat.exists_eq_succ_of_ne_zero (Nat.ne_of_gt h)
    rfl
  | case2 cs ih =>
    obtain ⟨m, rfl⟩ : ∃ m, n = m + 2 := ⟨n - 2, by simp at h; omega⟩
    have hm : cs.length < m := by simpa using h
    simp only [List.cons_append]
    rw [readString_plain (by decide) (by decide) (by decide), readString_simple (c := '/') rfl,
      ih hm]
    rfl
  | case3 c cs _ ih =>
    obtain ⟨m, rfl⟩ := Nat.exists_eq_succ_of_ne_zero (Nat.ne_of_gt (Nat.zero_lt_of_lt h))
    rw [List.append_assoc, readString_escapeChar, ih (Nat.lt_of_succ_lt_succ h)]
    rfl

theorem escapeChar_length (c : Char) : 0 < (escapeChar c).length := by
  rcases escapeChar_cases c with ⟨e, he, -⟩ | ⟨-, he⟩ | ⟨-, -, -, he⟩ <;> simp [he]

theorem length_le_escaped (t : Text) : t.length ≤ (t.flatMap escapeChar).length := by
  induction t with
  | nil => exact Nat.le_refl _
  | cons c t ih =>
    have hc := escapeChar_length c
    rw [List.flatMap_cons, List.length_append, List.length_cons]
    omega

theorem length_le_inScript (t : Text) : t.length ≤ (inScript t).length := by
  fun_induction inScript t with
  | case1 => exact Nat.le_refl _
  | case2 cs ih =>
    simp only [List.length_cons]
    omega
  | case3 c cs _ ih =>
    have hc := escapeChar_length c
    rw [List.length_append, List.length_cons]
    omega

end Pagewright.Json
