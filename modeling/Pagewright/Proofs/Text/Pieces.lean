import Pagewright.Text.Basic

namespace Pagewright.Text

theorem pieces_ne_nil {sep : Char} (t : Text) : pieces sep t ≠ [] := by
  cases t with
  | nil => simp [pieces]
  | cons c cs =>
    unfold pieces
    split
    · simp
    · split <;> simp

theorem pieces_append {sep : Char} (s t : Text) :
    pieces sep (s ++ sep :: t) = pieces sep s ++ pieces sep t := by
  induction s with
  | nil => simp [pieces]
  | cons c cs ih =>
    by_cases hc : c = sep
    · simp [pieces, hc, ih]
    · simp only [List.cons_append, pieces, hc, if_false, ih]
      cases hp : pieces sep cs with
      | nil => exact absurd hp (pieces_ne_nil cs)
      | cons p ps => rfl

/-- A text without the separator is one piece. -/
theorem pieces_one {sep : Char} {t : Text} (h : sep ∉ t) : pieces sep t = [t] := by
  induction t with
  | nil => rfl
  | cons c cs ih =>
    simp only [List.mem_cons, not_or] at h
    rw [pieces, if_neg (fun hc => h.1 hc.symm), ih h.2]

/-- The pieces of joined texts are the pieces of each. -/
theorem pieces_join {sep : Char} {ts : List Text} (h : ts ≠ []) :
    pieces sep (join [sep] ts) = ts.flatMap (pieces sep) := by
  induction ts with
  | nil => exact absurd rfl h
  | cons t ts ih =>
    cases ts with
    | nil => simp [join]
    | cons t' ts =>
      have ih := ih (by simp)
      simp only [join, List.intercalate_cons_cons] at ih ⊢
      rw [List.append_assoc, List.singleton_append, pieces_append, ih]
      rfl

theorem not_mem_join {c : Char} {sep : Text} {ts : List Text} (hsep : c ∉ sep)
    (h : ∀ t ∈ ts, c ∉ t) : c ∉ join sep ts := by
  induction ts with
  | nil => simp [join]
  | cons t ts ih =>
    cases ts with
    | nil => simpa [join] using h
    | cons u us =>
      have hlater := ih fun v hv => h v (List.mem_cons_of_mem t hv)
      rw [join] at hlater ⊢
      rw [List.intercalate_cons_cons, List.mem_append, List.mem_append, not_or, not_or]
      exact ⟨⟨h t (.head _), hsep⟩, hlater⟩

end Pagewright.Text
