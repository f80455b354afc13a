import Pagewright.Number.Bounded
import Pagewright.Number.Reading

namespace Pagewright.Number

/-- Decimal digits that denote a number, perhaps behind a plus sign. -/
def IsCount (t : Text) (n : Nat) : Prop :=
  ∃ digits, (t = digits ∨ t = '+' :: digits) ∧ digits ≠ [] ∧
    (∀ c ∈ digits, c.isDigit = true) ∧ ofDigits digits = n

/-- The number of some digits behind those that gave `n`. -/
def append (n : Nat) (digits : Text) : Nat :=
  digits.foldl (fun n c => n * 10 + (c.toNat - 48)) n

theorem le_append (n : Nat) (digits : Text) : n ≤ append n digits := by
  induction digits generalizing n with
  | nil => exact Nat.le_refl n
  | cons c digits ih =>
    have hstep : n ≤ n * 10 + (c.toNat - 48) := by omega
    exact Nat.le_trans hstep (ih _)

variable {bound n m : Nat} {t : Text}

/-- Digits are read as long as the number that they make is below the bound; further digits never
make it smaller. -/
theorem boundedFrom_eq_ok_iff (hn : n < bound) :
    boundedFrom bound n t = .ok m ↔
      (∀ c ∈ t, c.isDigit = true) ∧ append n t = m ∧ m < bound := by
  induction t generalizing n with
  | nil =>
    simp only [boundedFrom, append, Except.ok.injEq, List.foldl_nil]
    constructor
    · rintro rfl
      simpa using hn
    · exact fun h => h.2.1
  | cons c t ih =>
    rw [boundedFrom]
    by_cases hc : c.isDigit = true
    · by_cases hstep : n * 10 + (c.toNat - 48) < bound
      · simp only [hc, hstep, if_true, ih hstep, List.forall_mem_cons, true_and]
        rfl
      · have hbig : bound ≤ append n (c :: t) :=
          Nat.le_trans (Nat.le_of_not_lt hstep) (le_append _ t)
        simp only [hc, hstep, if_true, if_false, reduceCtorEq, false_iff]
        rintro ⟨-, rfl, hm⟩
        omega
    · simp [hc]

theorem isCount_plus : IsCount ('+' :: t) n ↔
    t ≠ [] ∧ (∀ c ∈ t, c.isDigit = true) ∧ append 0 t = n := by
  constructor
  · rintro ⟨digits, rfl | hplus, hne, hdigits, hvalue⟩
    · exact absurd (hdigits '+' List.mem_cons_self) (by decide)
    · obtain ⟨-, rfl⟩ := List.cons.inj hplus
      exact ⟨hne, hdigits, hvalue⟩
  · rintro ⟨hne, hdigits, hvalue⟩
    exact ⟨t, .inr rfl, hne, hdigits, hvalue⟩

theorem isCount_digits (h : t.head? ≠ some '+') : IsCount t n ↔
    t ≠ [] ∧ (∀ c ∈ t, c.isDigit = true) ∧ append 0 t = n := by
  constructor
  · rintro ⟨digits, rfl | rfl, hne, hdigits, hvalue⟩
    · exact ⟨hne, hdigits, hvalue⟩
    · exact absurd rfl h
  · rintro ⟨hne, hdigits, hvalue⟩
    exact ⟨t, .inl rfl, hne, hdigits, hvalue⟩

/-- Read is what denotes a number below the bound. -/
theorem bounded_eq_ok_iff (hbound : 0 < bound) :
    bounded bound t = .ok n ↔ IsCount t n ∧ n < bound := by
  unfold bounded
  split
  · have hnil := isCount_digits (t := []) (n := n) (by simp)
    simp [hnil]
  · have hplus := isCount_plus (t := []) (n := n)
    simp [hplus]
  · rename_i digits hne
    have hdigits : digits ≠ [] := by simpa using hne
    rw [boundedFrom_eq_ok_iff hbound, isCount_plus]
    simp [hdigits, and_assoc]
  · rename_i hnil _ hplus
    have hhead : t.head? ≠ some '+' := by
      intro h
      obtain ⟨rest, h⟩ := List.head?_eq_some_iff.mp h
      exact hplus rest h
    have hne : t ≠ [] := hnil
    rw [boundedFrom_eq_ok_iff hbound, isCount_digits hhead]
    simp [hne, and_assoc]

end Pagewright.Number
