import Pagewright.Proofs.Text.LineBounds

namespace Pagewright.Text

variable {t before line after x y : Text} {c : Char} {n m : Nat}

/-- A place comes before the places on later lines and those further on in its line. -/
def Place.IsBefore (p q : Place) : Prop :=
  p.line < q.line ∨ p.line = q.line ∧ p.column < q.column

/-- The offset that a place leads to: the characters of its line before its column are passed
over. -/
def offsetOf (t : Text) (p : Place) : Nat :=
  let start := lineOffset t (p.line - 1)
  start + size ((dropBytes start t).take (p.column - 1))

theorem lineOffset_newline (t : Text) (k : Nat) :
    lineOffset ('\n' :: t) (k + 1) = 1 + lineOffset t k := by
  have hline : IsLine [] ['\n'] t := ⟨by simp, by simp, by simp⟩
  exact lineOffset_succ hline k

/-- A character that ends no line moves the ends of all lines on. -/
theorem lineOffset_cons (hc : c ≠ '\n') (t : Text) (k : Nat) :
    lineOffset (c :: t) (k + 1) = c.utf8Size + lineOffset t (k + 1) := by
  obtain ⟨after, ht, hline⟩ := exists_firstLine t
  generalize firstLine t = line at ht hline
  subst ht
  rw [lineOffset_succ hline, ← List.cons_append, lineOffset_succ (hline.cons hc), size_cons,
    Nat.add_assoc]

/-- As many line feeds as come before a line lead to its start. -/
theorem lineOffset_count (hstart : ∀ c ∈ before.getLast?, c = '\n') (after : Text) :
    lineOffset (before ++ after) (before.count '\n') = size before := by
  induction before with
  | nil => rfl
  | cons c before ih =>
    have hlater : ∀ d ∈ before.getLast?, d = '\n' := by
      intro d hd
      apply hstart
      rw [List.getLast?_cons, Option.mem_def.mp hd]
      rfl
    have ih := ih hlater
    by_cases hc : c = '\n'
    · subst c
      rw [List.count_cons_self, List.cons_append, lineOffset_newline, ih, size_cons]
      rfl
    · have hne : before ≠ [] := by
        rintro rfl
        exact hc (hstart c rfl)
      have hmem : '\n' ∈ before := by
        have hlast := hlater _ (List.getLast?_eq_some_getLast hne)
        rw [← hlast]
        exact List.getLast_mem hne
      obtain ⟨k, hk⟩ := Nat.exists_eq_succ_of_ne_zero (Nat.ne_of_gt (List.count_pos_iff.mpr hmem))
      rw [hk] at ih
      rw [List.count_cons_of_ne hc, hk, List.cons_append, lineOffset_cons hc, ih, size_cons]

/-- The line of a place counts the line feeds before the line, its column the characters before
the offset. -/
theorem IsLine.place_eq (h : IsLine before (x ++ y) after) (hx : '\n' ∉ x) :
    place (before ++ (x ++ y) ++ after) (size before + size x) =
      ⟨before.count '\n' + 1, x.length + 1⟩ := by
  have htext : before ++ (x ++ y) ++ after = (before ++ x) ++ (y ++ after) := by simp
  rw [place, htext, ← size_append, takeBytes_size]
  simp only [List.count_append, List.count_eq_zero_of_not_mem hx, lastLine_eq h.starts hx,
    Nat.add_zero]

/-- Counting line feeds and looking back for one lead to the same start of a line. -/
theorem lineOffset_place (h : t.IsCut n) :
    lineOffset t ((place t n).line - 1) = lineStart t n := by
  obtain ⟨before, x, y, after, rfl, rfl, hline, hx⟩ := h.exists_isLine
  rw [hline.place_eq hx, hline.lineStart_eq hx, Nat.add_sub_cancel, List.append_assoc]
  exact lineOffset_count hline.starts _

theorem offsetOf_place (h : t.IsCut n) : offsetOf t (place t n) = n := by
  rw [offsetOf, lineOffset_place h]
  obtain ⟨before, x, y, after, rfl, rfl, hline, hx⟩ := h.exists_isLine
  have htext : before ++ (x ++ y) ++ after = before ++ (x ++ (y ++ after)) := by simp
  rw [hline.lineStart_eq hx, hline.place_eq hx, Nat.add_sub_cancel, htext, dropBytes_size,
    List.take_left]

/-- Characters between two offsets bring the later one onto a later line, or further on in the
same line. -/
theorem place_isBefore (hm : t.IsCut m) (hn : t.IsCut n) (hlt : m < n) :
    (place t m).IsBefore (place t n) := by
  obtain ⟨a, w, b, rfl, rfl, rfl⟩ := hasRange_of_isCut hm hn (Nat.le_of_lt hlt)
  have hw : w ≠ [] := by
    rintro rfl
    simp at hlt
  have hearlier : takeBytes (size a) (a ++ w ++ b) = a := by
    rw [List.append_assoc, takeBytes_size]
  have hlater : takeBytes (size a + size w) (a ++ w ++ b) = a ++ w := by
    rw [← size_append, takeBytes_size]
  simp only [Place.IsBefore, place, hearlier, hlater, List.count_append]
  by_cases hmem : '\n' ∈ w
  · have hcount : 0 < w.count '\n' := List.count_pos_iff.mpr hmem
    omega
  · obtain ⟨before, ha, hstart, hx⟩ := exists_lastLine a
    have hjoined : lastLine (a ++ w) = lastLine a ++ w := by
      have hxw : '\n' ∉ lastLine a ++ w := by
        rw [List.mem_append, not_or]
        exact ⟨hx, hmem⟩
      have hlast := lastLine_eq hstart hxw
      rwa [← List.append_assoc, ← ha] at hlast
    have hlength : 0 < w.length := List.length_pos_iff.mpr hw
    rw [hjoined, List.length_append, List.count_eq_zero_of_not_mem hmem]
    omega

theorem place_beyond (h : size t ≤ n) : place t n = place t (size t) := by
  have hwhole (n : Nat) (h : size t ≤ n) : takeBytes n t = t := by
    have htake := takeBytes_append [] h
    rwa [List.append_nil, takeBytes, List.append_nil] at htake
  rw [place, place, hwhole n h, hwhole (size t) (Nat.le_refl _)]

/-- Places stand for offsets: their order is that of the offsets, a place leads back to its
offset, and what lies beyond the end of a text has the place of the end. -/
theorem place_identifies (t : Text) :
    (∀ m n, t.IsCut m → t.IsCut n → m < n → (place t m).IsBefore (place t n)) ∧
    (∀ m n, t.IsCut m → t.IsCut n → place t m = place t n → m = n) ∧
    (∀ n, 1 ≤ (place t n).line ∧ 1 ≤ (place t n).column) ∧
    (∀ n, t.IsCut n → offsetOf t (place t n) = n) ∧
    ∀ n, size t ≤ n → place t n = place t (size t) := by
  refine ⟨fun m n => place_isBefore, ?_, ?_, fun n => offsetOf_place, fun n => place_beyond⟩
  · intro m n hm hn heq
    rw [← offsetOf_place hm, heq, offsetOf_place hn]
  · intro n
    exact ⟨Nat.le_add_left 1 _, Nat.le_add_left 1 _⟩

theorem place_identifies_sample :
    sampleLines.IsCut 2 ∧ sampleLines.IsCut 5 ∧
      (place sampleLines 2).IsBefore (place sampleLines 5) ∧
      place sampleLines 5 = ⟨3, 2⟩ ∧ offsetOf sampleLines ⟨3, 2⟩ = 5 ∧
      place sampleLines 9 = ⟨3, 3⟩ := by
  have htwo : sampleLines.IsCut 2 := ⟨['é'], ['\n', '\n', 'a', 'b'], rfl, rfl⟩
  have hfive : sampleLines.IsCut 5 := ⟨['é', '\n', '\n', 'a'], ['b'], rfl, rfl⟩
  have hplace : place sampleLines 5 = ⟨3, 2⟩ := by decide
  obtain ⟨hbefore, -, -, hback, hbeyond⟩ := place_identifies sampleLines
  have hoffset := hback 5 hfive
  rw [hplace] at hoffset
  exact ⟨htwo, hfive, hbefore 2 5 htwo hfive (by decide), hplace, hoffset,
    (hbeyond 9 (by decide)).trans (by decide)⟩

end Pagewright.Text
