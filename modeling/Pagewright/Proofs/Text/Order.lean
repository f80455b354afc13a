import Mathlib.Data.List.Sort
import Pagewright.Text.Encoding
import Pagewright.Text.Order

namespace Pagewright.Text

theorem encode_data (t : Text) : (encode t).data.toList = t.flatMap String.utf8EncodeChar := by
  rw [encode, String.toByteArray_ofList, List.utf8Encode]
  simp

theorem byte_cons_lt {m n : Nat} (hm : m < 256) (hn : n < 256) {xs ys : List UInt8} :
    UInt8.ofNat m :: xs < UInt8.ofNat n :: ys ↔ m < n ∨ m = n ∧ xs < ys := by
  have hval {k : Nat} (hk : k < 256) : (UInt8.ofNat k).toNat = k := by
    rw [UInt8.toNat_ofNat', Nat.mod_eq_of_lt hk]
  rw [List.cons_lt_cons_iff, UInt8.lt_iff_toNat_lt, ← UInt8.toNat_inj, hval hm, hval hn]

/-- The bytes of characters are ordered like the characters, whatever follows them. -/
theorem utf8_lt {a b : Char} (h : a.toNat < b.toNat) (xs ys : List UInt8) :
    String.utf8EncodeChar a ++ xs < String.utf8EncodeChar b ++ ys := by
  have hb : b.toNat < 0x110000 := by
    have hvalid := b.valid
    simp only [UInt32.isValidChar, Nat.isValidChar] at hvalid
    simp only [Char.toNat]
    omega
  -- Each byte behind the first one has six bits of the code point.
  have hdigits (k : Nat) : k / 4096 = k / 64 / 64 ∧ k / 262144 = k / 64 / 64 / 64 := by omega
  unfold String.utf8EncodeChar
  simp only [Char.toNat] at h hb
  generalize a.val.toNat = m at *
  generalize b.val.toNat = n at *
  simp only [hdigits]
  split_ifs
  all_goals
    simp only [List.cons_append, List.nil_append]
    repeat rw [byte_cons_lt (by omega) (by omega)]
    omega

theorem append_lt_append_iff {xs ys zs : List UInt8} : xs ++ ys < xs ++ zs ↔ ys < zs := by
  induction xs with
  | nil => rfl
  | cons x xs ih => simp [ih]

/-- One text comes before another if its bytes do. -/
theorem before_iff {t u : Text} :
    before t u = true ↔ (encode t).data.toList < (encode u).data.toList := by
  rw [encode_data, encode_data]
  induction t generalizing u with
  | nil =>
    cases u with
    | nil => simp [before]
    | cons b u =>
      have hne : (b :: u).flatMap String.utf8EncodeChar ≠ [] := by
        simp
      obtain ⟨x, xs, hx⟩ := List.exists_cons_of_ne_nil hne
      simp [before, hx]
  | cons a t ih =>
    cases u with
    | nil => simp [before]
    | cons b u =>
      rw [List.flatMap_cons, List.flatMap_cons, before]
      by_cases hab : a = b
      · rw [if_pos hab, hab, append_lt_append_iff, ih]
      · rw [if_neg hab, decide_eq_true_iff]
        refine ⟨fun h => utf8_lt h _ _, fun h => ?_⟩
        by_contra hle
        have hlt : b.toNat < a.toNat :=
          Nat.lt_of_le_of_ne (Nat.le_of_not_lt hle) fun heq => hab (Char.toNat_inj.mp heq).symm
        exact List.lt_asymm h (utf8_lt hlt _ _)

theorem before_trans {t u v : Text} (h : before t u = true) (h' : before u v = true) :
    before t v = true :=
  before_iff.mpr (List.lt_trans (before_iff.mp h) (before_iff.mp h'))

theorem before_irrefl (t : Text) : before t t = false := by
  induction t with
  | nil => rfl
  | cons a t ih => simp [before, ih]

theorem before_total {t u : Text} (hne : t ≠ u) (h : before t u = false) : before u t = true := by
  induction t generalizing u with
  | nil =>
    cases u with
    | nil => exact absurd rfl hne
    | cons b u => cases h
  | cons a t ih =>
    cases u with
    | nil => rfl
    | cons b u =>
      rw [before] at h ⊢
      by_cases hab : a = b
      · rw [if_pos hab] at h
        rw [if_pos hab.symm]
        exact ih (fun htu => hne (by rw [hab, htu])) h
      · rw [if_neg hab] at h
        rw [if_neg fun hba => hab hba.symm, decide_eq_true_iff]
        exact Nat.lt_of_le_of_ne (Nat.le_of_not_lt (of_decide_eq_false h))
          fun heq => hab (Char.toNat_inj.mp heq).symm

/-- Texts in strict order: sorted, and without repetition. -/
def IsStrict (ts : List Text) : Prop :=
  ts.Pairwise fun t u => before t u = true

theorem mem_insertSorted {t u : Text} {ts : List Text} :
    u ∈ insertSorted t ts ↔ u = t ∨ u ∈ ts := by
  induction ts with
  | nil => simp [insertSorted]
  | cons v ts ih =>
    unfold insertSorted
    split
    · rename_i htv
      simp [htv]
    · split
      · simp
      · simp only [List.mem_cons, ih]
        tauto

/-- Inserting a text keeps a list strictly sorted. -/
theorem isStrict_insertSorted (t : Text) {ts : List Text} (h : IsStrict ts) :
    IsStrict (insertSorted t ts) := by
  induction ts with
  | nil => exact List.pairwise_singleton _ _
  | cons v ts ih =>
    obtain ⟨hv, hts⟩ := List.pairwise_cons.mp h
    unfold insertSorted
    split
    · exact h
    · rename_i hne
      split
      · rename_i htv
        refine List.pairwise_cons.mpr ⟨fun u hu => ?_, h⟩
        rcases List.mem_cons.mp hu with rfl | hu
        · exact htv
        · exact before_trans htv (hv u hu)
      · rename_i htv
        refine List.pairwise_cons.mpr ⟨fun u hu => ?_, ih hts⟩
        rcases mem_insertSorted.mp hu with rfl | hu
        · exact before_total hne (by simpa using htv)
        · exact hv u hu

@[simp]
theorem mem_sortedSet {t : Text} {ts : List Text} : t ∈ sortedSet ts ↔ t ∈ ts := by
  induction ts with
  | nil => rfl
  | cons u ts ih =>
    rw [sortedSet, List.foldr_cons, mem_insertSorted, ← sortedSet, ih, List.mem_cons]

theorem isStrict_sortedSet (ts : List Text) : IsStrict (sortedSet ts) := by
  induction ts with
  | nil => exact .nil
  | cons u ts ih => exact isStrict_insertSorted u ih

/-- Strictly sorted lists of the same texts are the same list. -/
theorem IsStrict.eq_of_mem_iff {ts us : List Text} (ht : IsStrict ts) (hu : IsStrict us)
    (h : ∀ t, t ∈ ts ↔ t ∈ us) : ts = us := by
  have hirrefl : Std.Irrefl fun t u : Text => before t u = true :=
    ⟨fun t ht => by simp [before_irrefl] at ht⟩
  have hasymm : Std.Antisymm fun t u : Text => before t u = true :=
    ⟨fun t u htu hut => by simpa [before_irrefl] using before_trans htu hut⟩
  exact List.Pairwise.eq_of_mem_iff ht hu h

/-- Which texts are in a sorted set is all that it depends on. -/
theorem sortedSet_congr {ts us : List Text} (h : ∀ t, t ∈ ts ↔ t ∈ us) :
    sortedSet ts = sortedSet us :=
  (isStrict_sortedSet ts).eq_of_mem_iff (isStrict_sortedSet us) (by simpa using h)

end Pagewright.Text
