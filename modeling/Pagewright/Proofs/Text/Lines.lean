import Mathlib.Data.List.Chain
import Pagewright.Text.Basic

namespace Pagewright.Text

variable {t line : Text} {ls : List Text}

theorem flatten_lineList (t : Text) : (lineList t).flatten = t := by
  fun_induction lineList t with
  | case1 => rfl
  | case2 cs ih => rw [List.flatten_cons, ih, List.singleton_append]
  | case3 c cs hc hnil ih =>
    rw [hnil] at ih
    rw [← ih]
    rfl
  | case4 c cs hc l ls hl ih =>
    rw [hl] at ih
    rw [← ih]
    rfl

/-- Every line but the last ends with a line feed. -/
theorem lineList_ends (t : Text) : (lineList t).IsChain fun l _ => l.getLast? = some '\n' := by
  fun_induction lineList t with
  | case1 => exact .nil
  | case2 cs ih =>
    cases hl : lineList cs with
    | nil => exact .singleton _
    | cons l ls =>
      rw [hl] at ih
      exact .cons_cons rfl ih
  | case3 c cs hc hnil ih => exact .singleton _
  | case4 c cs hc l ls hl ih =>
    rw [hl] at ih
    cases ls with
    | nil => exact .singleton _
    | cons m ms =>
      obtain ⟨hlast, hms⟩ := List.isChain_cons_cons.mp ih
      refine .cons_cons ?_ hms
      rw [List.getLast?_cons, hlast]
      rfl

theorem lineList_line (h : '\n' ∉ line) (t : Text) :
    lineList (line ++ '\n' :: t) = (line ++ ['\n']) :: lineList t := by
  induction line with
  | nil => simp [lineList]
  | cons c line ih =>
    obtain ⟨hc, hline⟩ := not_or.mp (mt List.mem_cons.mpr h)
    rw [List.cons_append, lineList, if_neg (Ne.symm hc), ih hline]
    rfl

/-- The last line may end with the text. -/
theorem lineList_last (hne : line ≠ []) (h : '\n' ∉ line) : lineList line = [line] := by
  induction line with
  | nil => exact absurd rfl hne
  | cons c line ih =>
    obtain ⟨hc, hline⟩ := not_or.mp (mt List.mem_cons.mpr h)
    rw [lineList, if_neg (Ne.symm hc)]
    cases line with
    | nil => rfl
    | cons d line => rw [ih (List.cons_ne_nil d line) hline]

theorem lineList_append (s t : Text) :
    lineList (s ++ '\n' :: t) = lineList (s ++ ['\n']) ++ lineList t := by
  induction s with
  | nil => simp [lineList]
  | cons c s ih =>
    rw [List.cons_append, List.cons_append, lineList, lineList, ih]
    split
    · rfl
    · cases hs : lineList (s ++ ['\n']) with
      | nil =>
        have hflat := flatten_lineList (s ++ ['\n'])
        rw [hs] at hflat
        simp at hflat
      | cons l ls => rfl

theorem infix_of_mem_lineList (h : line ∈ lineList t) : line <:+: t := by
  obtain ⟨before, after, hlines⟩ := List.append_of_mem h
  have hflat := flatten_lineList t
  rw [hlines, List.flatten_append, List.flatten_cons] at hflat
  exact ⟨before.flatten, after.flatten, by rw [← hflat, List.append_assoc]⟩

theorem not_mem_dropLast_cons {c d : Char} (hc : c ≠ d) (h : d ∉ line.dropLast) :
    d ∉ (c :: line).dropLast := by
  cases line with
  | nil => simp
  | cons e line =>
    rw [List.dropLast_cons_cons, List.mem_cons, not_or]
    exact ⟨Ne.symm hc, h⟩

theorem not_mem_of_dropLast {d : Char} (h : d ∉ line.dropLast) (hlast : line.getLast? ≠ some d) :
    d ∉ line := by
  intro hmem
  have hne := List.ne_nil_of_mem hmem
  rw [← List.dropLast_append_getLast hne, List.mem_append, List.mem_singleton] at hmem
  rcases hmem with hmem | hmem
  · exact h hmem
  · rw [List.getLast?_eq_some_getLast hne, ← hmem] at hlast
    exact hlast rfl

/-- A line feed stands nowhere but at the end of a line. -/
theorem lineList_inner (h : line ∈ lineList t) : '\n' ∉ line.dropLast := by
  fun_induction lineList t generalizing line with
  | case1 => cases h
  | case2 cs ih =>
    rcases List.mem_cons.mp h with rfl | h
    · simp
    · exact ih h
  | case3 c cs hc hnil ih =>
    rw [List.mem_singleton.mp h]
    simp
  | case4 c cs hc l ls hl ih =>
    rw [hl] at ih
    rcases List.mem_cons.mp h with rfl | h
    · exact not_mem_dropLast_cons hc (ih List.mem_cons_self)
    · exact ih (List.mem_cons_of_mem l h)

theorem chomp_of_not_mem (h : '\n' ∉ line) : chomp line = line := by
  rw [chomp, if_neg]
  intro hlast
  exact h (List.mem_of_getLast? hlast)

theorem chomp_line (h : line.getLast? ≠ some '\r') : chomp (line ++ ['\n']) = line := by
  simp [chomp, h]

/-- A line without its end holds no line feed. -/
theorem not_mem_chomp (h : '\n' ∉ line.dropLast) : '\n' ∉ chomp line := by
  unfold chomp
  split
  · dsimp only
    split
    · exact fun hmem => h (List.dropLast_subset _ hmem)
    · exact h
  · rename_i hlast
    exact not_mem_of_dropLast h hlast

theorem not_mem_lines (h : line ∈ lines t) : '\n' ∉ line := by
  obtain ⟨l, hl, rfl⟩ := List.mem_map.mp h
  exact not_mem_chomp (lineList_inner hl)

theorem lines_line (h : '\n' ∉ line) (hr : line.getLast? ≠ some '\r') (t : Text) :
    lines (line ++ '\n' :: t) = line :: lines t := by
  rw [lines, lineList_line h, List.map_cons, chomp_line hr]
  rfl

theorem lines_last (hne : line ≠ []) (h : '\n' ∉ line) : lines line = [line] := by
  rw [lines, lineList_last hne h, List.map_singleton, chomp_of_not_mem h]

/-- Lines that are joined by line feeds are the lines of the text, unless the last one is empty. -/
theorem lines_join (hlast : ls.getLast? ≠ some [])
    (h : ∀ l ∈ ls, '\n' ∉ l ∧ l.getLast? ≠ some '\r') : lines (join ['\n'] ls) = ls := by
  induction ls with
  | nil => rfl
  | cons l ls ih =>
    obtain ⟨hfeed, hreturn⟩ := h l List.mem_cons_self
    cases ls with
    | nil =>
      have hne : l ≠ [] := by
        rintro rfl
        exact hlast rfl
      rw [join, List.intercalate_singleton]
      exact lines_last hne hfeed
    | cons l' ls =>
      rw [List.getLast?_cons_cons] at hlast
      have hlater := ih hlast fun m hm => h m (List.mem_cons_of_mem l hm)
      rw [join] at hlater ⊢
      rw [List.intercalate_cons_cons, List.append_assoc, List.singleton_append,
        lines_line hfeed hreturn, hlater]

/-- Texts of one line each, one after the other, are the lines of the whole. -/
theorem lineList_flatMap {α : Type} {f : α → Text} {xs : List α}
    (h : ∀ x ∈ xs, ∃ body, f x = body ++ ['\n'] ∧ '\n' ∉ body) :
    lineList (xs.flatMap f) = xs.map f := by
  induction xs with
  | nil => rfl
  | cons x xs ih =>
    obtain ⟨body, hx, hbody⟩ := h x List.mem_cons_self
    have hlater := ih fun y hy => h y (List.mem_cons_of_mem x hy)
    rw [List.flatMap_cons, List.map_cons, hx, List.append_assoc, List.singleton_append,
      lineList_line hbody, hlater]

end Pagewright.Text
