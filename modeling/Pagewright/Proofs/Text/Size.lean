import Pagewright.Text.Lines

namespace Pagewright.Text

@[simp]
theorem size_nil : size [] = 0 := rfl

@[simp]
theorem size_cons (c : Char) (cs : Text) : size (c :: cs) = c.utf8Size + size cs := rfl

@[simp]
theorem size_append (s t : Text) : size (s ++ t) = size s + size t := by
  induction s with
  | nil => simp
  | cons c cs ih => simp [ih, Nat.add_assoc]

theorem length_le_size (t : Text) : t.length ≤ size t := by
  induction t with
  | nil => simp
  | cons c cs ih =>
    have hc := c.utf8Size_pos
    simp only [List.length_cons, size_cons]
    omega

def IsNarrow (c : Char) : Prop :=
  c.utf8Size = 1

theorem isNarrow_of_lt {c : Char} (h : c.toNat < 128) : IsNarrow c :=
  Char.utf8Size_eq_one_iff.mpr (UInt32.le_iff_toNat_le.mpr (Nat.le_of_lt_succ h))

theorem size_narrow {t : Text} (h : ∀ c ∈ t, IsNarrow c) : size t = t.length := by
  induction t with
  | nil => rfl
  | cons c cs ih =>
    have hc : c.utf8Size = 1 := h c (by simp)
    have ht := ih fun d hd => h d (by simp [hd])
    simp only [size_cons, List.length_cons]
    omega

theorem takeBytes_size (s t : Text) : takeBytes (size s) (s ++ t) = s := by
  induction s with
  | nil => cases t <;> simp [takeBytes]
  | cons c cs ih =>
    have hc := c.utf8Size_pos
    have hn : c.utf8Size + size cs ≠ 0 := by omega
    rw [List.cons_append, size_cons, takeBytes, if_neg hn, Nat.add_sub_cancel_left, ih]

theorem dropBytes_size (s t : Text) : dropBytes (size s) (s ++ t) = t := by
  induction s with
  | nil => cases t <;> simp [dropBytes]
  | cons c cs ih =>
    have hc := c.utf8Size_pos
    have hn : c.utf8Size + size cs ≠ 0 := by omega
    rw [List.cons_append, size_cons, dropBytes, if_neg hn, Nat.add_sub_cancel_left, ih]

/-- The slice between the sizes of two starts of a text is what stands between them. -/
theorem slice_size (s t u : Text) : slice (s ++ t ++ u) (size s) (size s + size t) = t := by
  rw [slice, Nat.add_sub_cancel_left, List.append_assoc, dropBytes_size, takeBytes_size]

end Pagewright.Text
