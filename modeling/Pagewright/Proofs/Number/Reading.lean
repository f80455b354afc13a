import Pagewright.Number.Reading

namespace Pagewright.Number

theorem digitValue {n : Nat} (h : n < 10) : (Nat.digitChar n).toNat - 48 = n := by
  have hall : ∀ n < 10, (Nat.digitChar n).toNat - 48 = n := by decide
  exact hall n h

/-- The digits of a number denote it. -/
theorem ofDigits_ofNat (n : Nat) : ofDigits (Text.ofNat n) = n := by
  induction n using Nat.strongRecOn with
  | ind n ih =>
    unfold Text.ofNat
    by_cases hn : n < 10
    · rw [Nat.toDigits_of_lt_base hn]
      simp [ofDigits, digitValue hn]
    · have ih := ih (n / 10) (by omega)
      rw [Nat.toDigits_of_base_le (by decide) (by omega)]
      unfold ofDigits at ih ⊢
      rw [List.foldl_append, ← Text.ofNat, ih]
      simp only [List.foldl_cons, List.foldl_nil, digitValue (Nat.mod_lt n (by decide))]
      omega

theorem ofNat_digit {n : Nat} {c : Char} (h : c ∈ Text.ofNat n) : c.isDigit = true :=
  Nat.isDigit_of_mem_toDigits (by decide) (by decide) h

/-- A whole number is written with digits and perhaps a minus sign. -/
theorem mem_ofInt {n : Int} {c : Char} (h : c ∈ Text.ofInt n) : c = '-' ∨ c.isDigit = true := by
  unfold Text.ofInt at h
  split at h
  · cases h with
    | head => exact .inl rfl
    | tail _ h => exact .inr (ofNat_digit h)
  · exact .inr (ofNat_digit h)

theorem ofNat_ne_nil (n : Nat) : Text.ofNat n ≠ [] :=
  Nat.toDigits_ne_nil

theorem readSign_digit {c : Char} {cs : Text} (h : c.isDigit = true) :
    readSign (c :: cs) = (false, c :: cs) := by
  have hne : c ≠ '-' ∧ c ≠ '+' := by
    refine ⟨?_, ?_⟩ <;> (rintro rfl; exact absurd h (by decide))
  unfold readSign
  split
  · rename_i heq
    exact absurd (List.cons.inj heq).1 hne.1
  · rename_i heq
    exact absurd (List.cons.inj heq).1 hne.2
  · rfl

/-- The sign of a number and its digits. -/
theorem readSign_ofInt (n : Int) :
    readSign (Text.ofInt n) = (decide (n < 0), Text.ofNat n.natAbs) := by
  unfold Text.ofInt
  by_cases hn : n < 0
  · simp [hn, readSign]
  · rw [if_neg hn]
    cases hd : Text.ofNat n.natAbs with
    | nil => exact absurd hd (ofNat_ne_nil _)
    | cons c cs =>
      rw [readSign_digit (ofNat_digit (n := n.natAbs) (by rw [hd]; simp))]
      simp [hn]

/-- A sign and digits denote the number that they were written for. -/
theorem signed_natAbs (n : Int) :
    (if decide (n < 0) = true then -(n.natAbs : Int) else (n.natAbs : Int)) = n := by
  by_cases hn : n < 0
  · rw [if_pos (decide_eq_true hn)]
    omega
  · rw [if_neg (by rwa [decide_eq_true_eq])]
    omega

theorem whole?_ofInt (n : Int) : whole? (Text.ofInt n) = some n := by
  have hdigits : (Text.ofNat n.natAbs).all Char.isDigit = true :=
    List.all_eq_true.mpr fun c hc => ofNat_digit hc
  have hne : (Text.ofNat n.natAbs).isEmpty = false := by
    simp [ofNat_ne_nil]
  simp only [whole?, readSign_ofInt, hdigits, hne, ofDigits_ofNat, signed_natAbs, Bool.not_true,
    Bool.or_self, Bool.false_eq_true, if_false]

def isNumeral (c : Char) : Bool :=
  c.isDigit || c ∈ ['.', 'e', '-', '+', 'i', 'n', 'f']

theorem isNumeral_digit {c : Char} (h : c.isDigit = true) : isNumeral c = true := by
  simp [isNumeral, h]

theorem ofInt_isNumeral {n : Int} {c : Char} (h : c ∈ Text.ofInt n) : isNumeral c = true := by
  cases mem_ofInt h with
  | inl h =>
    rw [h]
    decide
  | inr h => exact isNumeral_digit h

theorem Format.shortest_of_ne_zero {f : Format} {tieUp : Bool} {significand : Nat} {scale : Int}
    (h : significand ≠ 0) :
    f.shortest tieUp significand scale =
      match f.search tieUp significand scale 20 (leadingExponent significand scale) with
      | none => ⟨['0'], 0⟩
      | some (k, step) =>
        let all := Nat.toDigits 10 k
        let kept := (all.reverse.dropWhile (· = '0')).reverse
        ⟨kept, (all.length : Int) - 1 + step⟩ :=
  if_neg h

/-- The shortest digits of a value are digits. -/
theorem Format.shortest_digit {f : Format} {tieUp : Bool} {significand : Nat} {scale : Int}
    {c : Char} (h : c ∈ (f.shortest tieUp significand scale).digits) : c.isDigit = true := by
  have hzero : c ∈ ['0'] → c.isDigit = true := by
    intro hc
    rw [List.mem_singleton.mp hc]
    decide
  by_cases h0 : significand = 0
  · rw [Format.shortest, if_pos h0] at h
    exact hzero h
  · rw [shortest_of_ne_zero h0] at h
    generalize f.search tieUp significand scale 20 (leadingExponent significand scale) = found at h
    cases found with
    | none => exact hzero h
    | some point =>
      have hpoint : c ∈ Nat.toDigits 10 point.1 :=
        List.mem_reverse.mp (List.dropWhile_subset _ (List.mem_reverse.mp h))
      exact ofNat_digit hpoint

theorem Digits.positional_isNumeral {d : Digits} (hd : ∀ c ∈ d.digits, c.isDigit = true)
    {c : Char} (h : c ∈ d.positional) : isNumeral c = true := by
  have hzeros : ∀ {n}, c ∈ List.replicate n '0' → isNumeral c = true := by
    intro n hc
    rw [List.eq_of_mem_replicate hc]
    decide
  unfold Digits.positional at h
  simp only at h
  split at h
  · simp only [List.mem_append] at h
    rcases h with (h | h) | h
    · exact List.all_eq_true.mp (show "0.".toList.all isNumeral = true by decide) c h
    · exact hzeros h
    · exact isNumeral_digit (hd c h)
  · split at h
    · rcases List.mem_append.mp h with h | h
      · exact isNumeral_digit (hd c h)
      · exact hzeros h
    · rcases List.mem_append.mp h with h | h
      · exact isNumeral_digit (hd c (List.mem_of_mem_take h))
      · cases h with
        | head => decide
        | tail _ h => exact isNumeral_digit (hd c (List.mem_of_mem_drop h))

theorem Digits.scientific_isNumeral {d : Digits} (hd : ∀ c ∈ d.digits, c.isDigit = true)
    {c : Char} (h : c ∈ d.scientific) : isNumeral c = true := by
  unfold Digits.scientific at h
  simp only [List.mem_append, List.mem_cons] at h
  rcases h with (h | h) | rfl | h | h
  · exact isNumeral_digit (hd c (List.mem_of_mem_take h))
  · split at h
    · cases h
    · cases h with
      | head => decide
      | tail _ h => exact isNumeral_digit (hd c (List.mem_of_mem_drop h))
  · decide
  · split at h
    · rw [h]
      decide
    · rw [h]
      decide
  · exact isNumeral_digit (ofNat_digit h)

theorem Layout.layOut_cases (s : Layout) (d : Digits) :
    s.layOut d = d.positional ∨ s.layOut d = d.positional ++ ".0" ∨ s.layOut d = d.scientific := by
  unfold Layout.layOut
  simp only
  split
  all_goals
    split
    · split
      · exact .inr (.inl rfl)
      · exact .inl rfl
    · exact .inr (.inr rfl)

theorem Layout.layOut_isNumeral {s : Layout} {d : Digits}
    (hd : ∀ c ∈ d.digits, c.isDigit = true) {c : Char} (h : c ∈ s.layOut d) :
    isNumeral c = true := by
  rcases s.layOut_cases d with hs | hs | hs
  · exact d.positional_isNumeral hd (hs ▸ h)
  · rw [hs, List.mem_append] at h
    cases h with
    | inl h => exact d.positional_isNumeral hd h
    | inr h => exact List.all_eq_true.mp (show ".0".toList.all isNumeral = true by decide) c h
  · exact d.scientific_isNumeral hd (hs ▸ h)

/-- A number is written with digits, a point, an exponent, signs, and the letters of infinity. -/
theorem Format.render_isNumeral {f : Format} {s : Layout} {x : Binary} {c : Char}
    (h : c ∈ f.render s x) : isNumeral c = true := by
  cases x with
  | finite negative significand scale =>
    have htext : ∀ {c}, c ∈ s.layOut (f.shortest s.tieUp significand scale) →
        isNumeral c = true :=
      s.layOut_isNumeral fun _ => f.shortest_digit
    unfold Format.render at h
    simp only at h
    split at h
    · cases h with
      | head => decide
      | tail _ h => exact htext h
    · exact htext h
  | infinite negative =>
    cases negative with
    | false => exact List.all_eq_true.mp (show "inf".toList.all isNumeral = true by decide) c h
    | true => exact List.all_eq_true.mp (show "-inf".toList.all isNumeral = true by decide) c h

end Pagewright.Number
