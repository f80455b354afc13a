import Pagewright.Text.Basic

namespace Pagewright.Text

variable {p : Char → Bool} {run rest run' rest' : Text}

/-- Characters that satisfy `p`, and a rest that does not go on with one. -/
structure IsRun (p : Char → Bool) (run rest : Text) : Prop where
  all : ∀ c ∈ run, p c = true
  ends : ∀ c ∈ rest.head?, p c = false

theorem IsRun.takeWhile_eq (h : IsRun p run rest) :
    (run ++ rest).takeWhile p = run ∧ (run ++ rest).dropWhile p = rest := by
  rw [List.takeWhile_append_of_pos h.all, List.dropWhile_append_of_pos h.all]
  cases rest with
  | nil => simp
  | cons d ds =>
    have hd := h.ends d rfl
    simp [hd]

theorem isRun_takeWhile (p : Char → Bool) (t : Text) :
    IsRun p (t.takeWhile p) (t.dropWhile p) := by
  constructor
  · exact List.all_eq_true.mp List.all_takeWhile
  · intro c hc
    have hhead := List.head?_dropWhile_not p t
    rw [Option.mem_def.mp hc] at hhead
    simpa using hhead

/-- A text has one run at its start. -/
theorem IsRun.unique (h : IsRun p run rest) (h' : IsRun p run' rest')
    (heq : run ++ rest = run' ++ rest') : run = run' ∧ rest = rest' := by
  have hrun := h.takeWhile_eq
  rw [heq] at hrun
  exact ⟨hrun.1.symm.trans h'.takeWhile_eq.1, hrun.2.symm.trans h'.takeWhile_eq.2⟩

end Pagewright.Text
