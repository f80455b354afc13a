import Pagewright.Proofs.Text.Size

namespace Pagewright.Text

/-- An offset between two characters of a text, or at one of its ends. -/
def IsCut (t : Text) (n : Nat) : Prop :=
  ∃ a b, t = a ++ b ∧ size a = n

/-- Two offsets with a part of the text between them. -/
def HasRange (t : Text) (start stop : Nat) : Prop :=
  ∃ a b c, t = a ++ b ++ c ∧ size a = start ∧ size a + size b = stop

theorem isCut_zero (t : Text) : t.IsCut 0 :=
  ⟨[], t, rfl, rfl⟩

theorem isCut_size (t : Text) : t.IsCut (size t) :=
  ⟨t, [], (List.append_nil t).symm, rfl⟩

theorem IsCut.le_size {t : Text} {n : Nat} (h : t.IsCut n) : n ≤ size t := by
  obtain ⟨a, b, rfl, rfl⟩ := h
  simp

/-- Of two starts of a text the smaller one starts the other. -/
theorem append_eq_of_size_le {a b c d : Text} (h : a ++ b = c ++ d) (hle : size a ≤ size c) :
    ∃ w, c = a ++ w ∧ b = w ++ d := by
  rcases List.append_eq_append_iff.mp h with ⟨w, rfl, rfl⟩ | ⟨w, rfl, rfl⟩
  · exact ⟨w, rfl, rfl⟩
  · have hw := length_le_size w
    have hnil : w = [] := by
      rw [size_append] at hle
      exact List.length_eq_zero_iff.mp (by omega)
    subst w
    exact ⟨[], by simp, by simp⟩

/-- Two starts of a text of the same size are the same. -/
theorem append_inj_of_size {a b c d : Text} (h : a ++ b = c ++ d) (hsize : size a = size c) :
    a = c ∧ b = d := by
  obtain ⟨w, rfl, rfl⟩ := append_eq_of_size_le h (Nat.le_of_eq hsize)
  have hlength := length_le_size w
  rw [size_append] at hsize
  obtain rfl : w = [] := List.length_eq_zero_iff.mp (by omega)
  exact ⟨(List.append_nil a).symm, rfl⟩

theorem hasRange_of_isCut {t : Text} {start stop : Nat} (hstart : t.IsCut start)
    (hstop : t.IsCut stop) (hle : start ≤ stop) : t.HasRange start stop := by
  obtain ⟨a, b, rfl, rfl⟩ := hstart
  obtain ⟨c, d, h, rfl⟩ := hstop
  obtain ⟨w, rfl, rfl⟩ := append_eq_of_size_le h hle
  exact ⟨a, w, d, by rw [List.append_assoc], rfl, by simp⟩

theorem HasRange.isCut_start {t : Text} {start stop : Nat} (h : t.HasRange start stop) :
    t.IsCut start := by
  obtain ⟨a, b, c, rfl, rfl, -⟩ := h
  exact ⟨a, b ++ c, by rw [List.append_assoc], rfl⟩

theorem HasRange.isCut_stop {t : Text} {start stop : Nat} (h : t.HasRange start stop) :
    t.IsCut stop := by
  obtain ⟨a, b, c, rfl, -, rfl⟩ := h
  exact ⟨a ++ b, c, rfl, by simp⟩

/-- A slice between the ends of a range is what stands there. -/
theorem slice_of_hasRange {t : Text} {start stop : Nat} (h : t.HasRange start stop) :
    ∃ a c, t = a ++ slice t start stop ++ c ∧ size a = start ∧
      start + size (slice t start stop) = stop := by
  obtain ⟨a, b, c, rfl, rfl, rfl⟩ := h
  rw [slice_size]
  exact ⟨a, c, rfl, rfl, rfl⟩

theorem takeBytes_append {s : Text} {n : Nat} (t : Text) (h : size s ≤ n) :
    takeBytes n (s ++ t) = s ++ takeBytes (n - size s) t := by
  induction s generalizing n with
  | nil => simp
  | cons c cs ih =>
    have hc := c.utf8Size_pos
    rw [size_cons] at h
    have hn : n ≠ 0 := by omega
    rw [List.cons_append, takeBytes, if_neg hn, ih (by omega), size_cons, Nat.sub_add_eq]
    rfl

theorem dropBytes_append {s : Text} {n : Nat} (t : Text) (h : size s ≤ n) :
    dropBytes n (s ++ t) = dropBytes (n - size s) t := by
  induction s generalizing n with
  | nil => simp
  | cons c cs ih =>
    have hc := c.utf8Size_pos
    rw [size_cons] at h
    have hn : n ≠ 0 := by omega
    rw [List.cons_append, dropBytes, if_neg hn, ih (by omega), size_cons, Nat.sub_add_eq]

theorem hasRange_append {t : Text} {start stop : Nat} (s : Text) (h : t.HasRange start stop) :
    (s ++ t).HasRange (size s + start) (size s + stop) := by
  obtain ⟨a, b, c, rfl, rfl, rfl⟩ := h
  refine ⟨s ++ a, b, c, by simp, by simp, ?_⟩
  rw [size_append]
  omega

/-- A range behind the start of a text is one of what follows the start. -/
theorem hasRange_suffix {s t : Text} {start stop : Nat} (h : (s ++ t).HasRange start stop)
    (hle : size s ≤ start) : t.HasRange (start - size s) (stop - size s) := by
  obtain ⟨a, b, c, habc, rfl, rfl⟩ := h
  rw [List.append_assoc] at habc
  obtain ⟨w, rfl, rfl⟩ := append_eq_of_size_le habc hle
  refine ⟨w, b, c, by simp, ?_, ?_⟩
  · rw [size_append]
    omega
  · rw [size_append]
    omega

/-- An offset no later than the end of a start cuts the start. -/
theorem isCut_left {s t : Text} {n : Nat} (h : (s ++ t).IsCut n) (hle : n ≤ size s) :
    s.IsCut n := by
  obtain ⟨a, b, hab, rfl⟩ := h
  obtain ⟨w, rfl, -⟩ := append_eq_of_size_le hab.symm hle
  exact ⟨a, w, rfl, rfl⟩

theorem takeBytes_of_isCut {t : Text} {n : Nat} (h : t.IsCut n) :
    t = takeBytes n t ++ dropBytes n t ∧ size (takeBytes n t) = n := by
  obtain ⟨a, b, rfl, rfl⟩ := h
  rw [takeBytes_size, dropBytes_size]
  exact ⟨rfl, rfl⟩

theorem HasRange.le {t : Text} {start stop : Nat} (h : t.HasRange start stop) : start ≤ stop := by
  obtain ⟨a, b, c, -, rfl, rfl⟩ := h
  exact Nat.le_add_right _ _

/-- A range inside another one is a range of what stands there. -/
theorem hasRange_slice {t : Text} {start stop lo hi : Nat} (h : t.HasRange start stop)
    (hlo : t.HasRange lo hi) (hstart : start ≤ lo) (hstop : hi ≤ stop) :
    (slice t start stop).HasRange (lo - start) (hi - start) := by
  obtain ⟨a, c, htext, hsize, hslice⟩ := slice_of_hasRange h
  rw [htext, List.append_assoc] at hlo
  have hsuffix := hasRange_suffix hlo (by omega)
  rw [hsize] at hsuffix
  have hle := hlo.le
  refine hasRange_of_isCut (isCut_left hsuffix.isCut_start ?_) (isCut_left hsuffix.isCut_stop ?_) ?_
  · omega
  · omega
  · omega

end Pagewright.Text
