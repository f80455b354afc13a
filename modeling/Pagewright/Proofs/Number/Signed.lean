import Mathlib.Data.List.TakeWhile
import Pagewright.Proofs.Number.Reading
import Pagewright.Proofs.Text.Runs

namespace Pagewright.Number

def isNumeric (c : Char) : Bool :=
  c.isDigit || c ∈ ['.', 'e', 'E', '+', '-']

/-- A character that no number is read from, and that is not dropped before. -/
def isForeign (c : Char) : Bool :=
  c ≠ '_' && !Text.isBlank c && !isNumeric c

def cleaned (t : Text) : Text :=
  t.filter fun c => c ≠ '_' && !Text.isBlank c

theorem cleaned_append (s t : Text) : cleaned (s ++ t) = cleaned s ++ cleaned t :=
  List.filter_append s t

theorem cleaned_blank {t : Text} (h : ∀ c ∈ t, Text.isBlank c = true) : cleaned t = [] := by
  refine List.filter_eq_nil_iff.mpr fun c hc => ?_
  simp [h c hc]

theorem mem_cleaned {t : Text} {c : Char} :
    c ∈ cleaned t ↔ c ∈ t ∧ c ≠ '_' ∧ Text.isBlank c = false := by
  simp [cleaned]

/-- The digits after a point, if one starts the text, and what follows them. -/
def fraction (t : Text) : Text × Text :=
  if t.head? = some '.' then
    ((t.drop 1).takeWhile Char.isDigit, (t.drop 1).dropWhile Char.isDigit)
  else ([], t)

/-- The digits and the exponent of a text without a sign. -/
def decimal? (t : Text) : Option (Nat × Int) :=
  let before := t.takeWhile Char.isDigit
  let places := (fraction (t.dropWhile Char.isDigit)).1
  if before.isEmpty && places.isEmpty then none
  else (exponent? (fraction (t.dropWhile Char.isDigit)).2).map fun e =>
    (ofDigits (before ++ places), e - places.length)

def Binary.finite? : Binary → Option Binary
  | .finite n m s => some (.finite n m s)
  | .infinite _ => none

/-- A double is the nearest one to the decimal behind the sign. -/
theorem double?_eq (t : Text) :
    double? t = (decimal? (readSign t).2).bind fun p =>
      (double.ofDecimal (readSign t).1 p.1 p.2).finite? := by
  unfold double? decimal?
  obtain ⟨negative, t⟩ := readSign t
  delta guard
  dsimp only
  split
  · rename_i rest r heq
    have hf : fraction (t.dropWhile Char.isDigit) =
        (r.takeWhile Char.isDigit, r.dropWhile Char.isDigit) := by
      simp [fraction, heq]
    rw [hf]
    cases t.takeWhile Char.isDigit <;> cases r.takeWhile Char.isDigit <;>
      cases exponent? (r.dropWhile Char.isDigit) <;> rfl
  · rename_i rest hne
    have hf : fraction (t.dropWhile Char.isDigit) = ([], t.dropWhile Char.isDigit) := by
      cases hd : t.dropWhile Char.isDigit with
      | nil => rfl
      | cons c r =>
        rw [fraction, if_neg]
        rintro hc
        exact hne r (by rw [hd, ← Option.some.inj hc])
    rw [hf]
    cases t.takeWhile Char.isDigit <;> cases exponent? (t.dropWhile Char.isDigit) <;> rfl

/-- The JSON number of a whole number: itself if it fits 64 bits, otherwise the nearest double. -/
def ofWhole? (n : Int) : Option Json :=
  if Json.isExact n then some (.int n)
  else (double.ofDecimal (n < 0) n.natAbs 0).finite?.map .real

def isWhole (t : Text) : Bool :=
  !t.isEmpty && t.all Char.isDigit

theorem isWhole_iff {t : Text} : isWhole t = true ↔ t ≠ [] ∧ ∀ c ∈ t, c.isDigit = true := by
  simp [isWhole]

theorem whole?_eq (t : Text) :
    whole? t = if isWhole (readSign t).2 then
      some (if (readSign t).1 then -(ofDigits (readSign t).2 : Int) else ofDigits (readSign t).2)
    else none := by
  unfold whole? isWhole
  obtain ⟨negative, digits⟩ := readSign t
  dsimp only
  cases digits.isEmpty <;> cases digits.all Char.isDigit <;> rfl

/-- Digits alone are a whole number. -/
theorem decimal?_digits {u : Text} (hne : u ≠ []) (h : ∀ c ∈ u, c.isDigit = true) :
    decimal? u = some (ofDigits u, 0) := by
  have htake : u.takeWhile Char.isDigit = u := List.takeWhile_eq_self_iff.mpr h
  have hdrop : u.dropWhile Char.isDigit = [] := List.dropWhile_eq_nil_iff.mpr h
  simp [decimal?, htake, hdrop, fraction, hne, exponent?]

/-- A number with a point. -/
theorem decimal?_point {before places exponent : Text} {e : Int}
    (hb : ∀ c ∈ before, c.isDigit = true) (hp : ∀ c ∈ places, c.isDigit = true)
    (hne : before ≠ [] ∨ places ≠ []) (he : exponent? exponent = some e)
    (hx : ∀ c ∈ exponent.head?, c.isDigit = false) :
    decimal? (before ++ '.' :: (places ++ exponent)) =
      some (ofDigits (before ++ places), e - places.length) := by
  have hpoint : Text.IsRun Char.isDigit before ('.' :: (places ++ exponent)) := ⟨hb, by simp⟩
  obtain ⟨htake, hdrop⟩ := hpoint.takeWhile_eq
  obtain ⟨hplaces, hexponent⟩ := Text.IsRun.takeWhile_eq ⟨hp, hx⟩
  have hfraction : fraction ('.' :: (places ++ exponent)) = (places, exponent) := by
    simp [fraction, hplaces, hexponent]
  have hnot : (before.isEmpty && places.isEmpty) = false := by
    simpa [← not_and_or] using hne
  simp [decimal?, htake, hdrop, hfraction, hnot, he]

/-- A number without a point. -/
theorem decimal?_plain {before exponent : Text} {e : Int}
    (hb : ∀ c ∈ before, c.isDigit = true) (hne : before ≠ []) (he : exponent? exponent = some e)
    (hx : ∀ c ∈ exponent.head?, c.isDigit = false ∧ c ≠ '.') :
    decimal? (before ++ exponent) = some (ofDigits before, e) := by
  obtain ⟨htake, hdrop⟩ := Text.IsRun.takeWhile_eq ⟨hb, fun c hc => (hx c hc).1⟩
  have hfraction : fraction exponent = ([], exponent) :=
    if_neg fun hc => (hx '.' hc).2 rfl
  simp [decimal?, htake, hdrop, hfraction, hne, he]

/-- What a text denotes, by what stands behind its sign. -/
theorem json?_of_sign {t u : Text} {negative : Bool}
    (h : readSign (cleaned t) = (negative, u)) :
    json? t = if isWhole u then ofWhole? (if negative then -(ofDigits u : Int) else ofDigits u)
      else ((decimal? u).bind fun p => (double.ofDecimal negative p.1 p.2).finite?).map .real := by
  unfold json?
  rw [← cleaned]
  dsimp only
  rw [whole?_eq, double?_eq, h]
  cases hu : isWhole u with
  | true =>
    obtain ⟨hne, hdigits⟩ := isWhole_iff.mp hu
    rw [if_pos rfl, if_pos rfl, decimal?_digits hne hdigits, ofWhole?]
    generalize hn : (if negative then -(ofDigits u : Int) else ofDigits u) = n
    by_cases he : Json.isExact n = true
    · simp [Option.filter, he]
    · have hsign : decide (n < 0) = negative ∧ n.natAbs = ofDigits u := by
        have h0 : n ≠ 0 := by
          rintro rfl
          exact he (by decide)
        cases negative with
        | true =>
          simp only [if_true] at hn
          exact ⟨decide_eq_true (by omega), by omega⟩
        | false =>
          simp only [Bool.false_eq_true, if_false] at hn
          exact ⟨decide_eq_false (by omega), by omega⟩
      simp [Option.filter, he, hsign.1, hsign.2]
  | false => rfl

theorem isNumeric_digit {c : Char} (h : c.isDigit = true) : isNumeric c = true := by
  simp [isNumeric, h]

/-- A sign is a character that numbers are read from. -/
theorem readSign_numeric {t : Text} (h : ∀ c ∈ (readSign t).2, isNumeric c = true) :
    ∀ c ∈ t, isNumeric c = true := by
  unfold readSign at h
  split at h
  · simpa using ⟨by decide, h⟩
  · simpa using ⟨by decide, h⟩
  · exact h

theorem whole?_numeric {t : Text} {n : Int} (h : whole? t = some n) :
    ∀ c ∈ t, isNumeric c = true := by
  rw [whole?_eq] at h
  split at h
  · rename_i hdigits
    exact readSign_numeric fun c hc => isNumeric_digit ((isWhole_iff.mp hdigits).2 c hc)
  · cases h

theorem exponent?_numeric {t : Text} {n : Int} (h : exponent? t = some n) :
    ∀ c ∈ t, isNumeric c = true := by
  cases t with
  | nil => simp
  | cons e rest =>
    by_cases he : e = 'e' ∨ e = 'E'
    · have hrest : whole? rest = some n := by
        rcases he with rfl | rfl <;> exact h
      have hmark : isNumeric e = true := by
        rcases he with rfl | rfl <;> decide
      simpa using ⟨hmark, whole?_numeric hrest⟩
    · simp [exponent?, he] at h

/-- Only digits, points and exponents are read as a decimal. -/
theorem decimal?_numeric {t : Text} {p : Nat × Int} (h : decimal? t = some p) :
    ∀ c ∈ t, isNumeric c = true := by
  have hdigits (r : Text) : ∀ c ∈ r.takeWhile Char.isDigit, isNumeric c = true := fun c hc =>
    isNumeric_digit (List.all_eq_true.mp List.all_takeWhile c hc)
  have hfraction : ∀ c ∈ t.dropWhile Char.isDigit, isNumeric c = true := by
    unfold decimal? at h
    simp only at h
    split at h
    · cases h
    · obtain ⟨e, he, -⟩ := Option.map_eq_some_iff.mp h
      unfold fraction at he
      cases hd : t.dropWhile Char.isDigit with
      | nil => simp
      | cons c r =>
        by_cases hc : c = '.'
        · have hr := exponent?_numeric (by simpa [hd, hc] using he)
          rw [hc, ← List.takeWhile_append_dropWhile (p := Char.isDigit) (l := r)]
          intro d hm
          rcases List.mem_cons.mp hm with rfl | hm
          · decide
          · rcases List.mem_append.mp hm with hm | hm
            · exact hdigits r d hm
            · exact hr d hm
        · exact exponent?_numeric (by simpa [hd, hc] using he)
  rw [← List.takeWhile_append_dropWhile (p := Char.isDigit) (l := t)]
  intro c hc
  rcases List.mem_append.mp hc with hc | hc
  · exact hdigits t c hc
  · exact hfraction c hc

/-- A text with a foreign character is no number. -/
theorem json?_foreign {t : Text} (h : ∃ c ∈ t, isForeign c = true) : json? t = none := by
  obtain ⟨c, hc, hforeign⟩ := h
  simp only [isForeign, Bool.and_eq_true, decide_eq_true_eq, Bool.not_eq_true'] at hforeign
  have hm : c ∈ cleaned t := mem_cleaned.mpr ⟨hc, hforeign.1⟩
  obtain ⟨negative, u, hu⟩ : ∃ negative u, readSign (cleaned t) = (negative, u) := ⟨_, _, rfl⟩
  have hnot : ¬∀ d ∈ u, isNumeric d = true := by
    intro hall
    have hnumeric := readSign_numeric (t := cleaned t) (by rwa [hu]) c hm
    rw [hforeign.2] at hnumeric
    cases hnumeric
  rw [json?_of_sign hu, if_neg]
  · cases hd : decimal? u with
    | none => rfl
    | some p => exact absurd (decimal?_numeric hd) hnot
  · exact fun hdigits => hnot fun d hd => isNumeric_digit ((isWhole_iff.mp hdigits).2 d hd)

theorem readSign_minus (t : Text) : readSign ('-' :: t) = (true, t) := rfl

theorem readSign_plus (t : Text) : readSign ('+' :: t) = (false, t) := rfl

/-- Nothing is read from two signs, or from two points behind a sign. -/
theorem json?_doubled {t u : Text} {negative : Bool} (h : readSign (cleaned t) = (negative, u))
    (hu : (∃ v, u = '-' :: v) ∨ (∃ v, u = '+' :: v) ∨ ∃ v, u = '.' :: '.' :: v) :
    json? t = none := by
  rw [json?_of_sign h]
  rcases hu with ⟨v, rfl⟩ | ⟨v, rfl⟩ | ⟨v, rfl⟩
  · rfl
  · rfl
  · rfl

def Binary.negate : Binary → Binary
  | .finite n m s => .finite (!n) m s
  | .infinite n => .infinite (!n)

theorem Format.round_negate (f : Format) (negative : Bool) (num den : Nat) :
    f.round (!negative) num den = (f.round negative num den).negate := by
  unfold Format.round
  split
  · rfl
  · simp only
    split
    all_goals
      split
      · rfl
      · rfl

theorem Format.ofDecimal_negate (f : Format) (negative : Bool) (digits : Nat) (exponent : Int) :
    f.ofDecimal (!negative) digits exponent = (f.ofDecimal negative digits exponent).negate := by
  unfold Format.ofDecimal
  simp only [Format.round_negate]
  split
  · rfl
  · split
    · rfl
    · split
      · rfl
      · rfl

end Pagewright.Number
