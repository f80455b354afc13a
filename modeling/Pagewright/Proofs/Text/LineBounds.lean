import Mathlib.Logic.Function.Iterate
import Pagewright.Proofs.Text.Lines
import Pagewright.Proofs.Text.Ranges
import Pagewright.Proofs.Text.Runs

namespace Pagewright.Text

variable {t before line after x y : Text} {c : Char} {n m : Nat}

/-- A line in its place: it comes at the start of the text or behind a line feed, and goes up to
its first line feed or to the end of the text. -/
structure IsLine (before line after : Text) : Prop where
  starts : ∀ c ∈ before.getLast?, c = '\n'
  inner : '\n' ∉ line.dropLast
  ends : after ≠ [] → line.getLast? = some '\n'

/-- Looking back stops behind the last line feed. -/
theorem lastLine_eq (hstart : ∀ c ∈ before.getLast?, c = '\n') (hx : '\n' ∉ x) :
    lastLine (before ++ x) = x := by
  have hrun : IsRun (· ≠ '\n') x.reverse before.reverse := by
    constructor
    · intro c hc
      have hne : c ≠ '\n' := by
        rintro rfl
        exact hx (List.mem_reverse.mp hc)
      simpa using hne
    · intro c hc
      rw [List.head?_reverse] at hc
      simp [hstart c hc]
  rw [lastLine, List.reverse_append, hrun.takeWhile_eq.1, List.reverse_reverse]

theorem exists_lastLine (t : Text) :
    ∃ before, t = before ++ lastLine t ∧ (∀ c ∈ before.getLast?, c = '\n') ∧
      '\n' ∉ lastLine t := by
  have hrun := isRun_takeWhile (· ≠ '\n') t.reverse
  refine ⟨(t.reverse.dropWhile (· ≠ '\n')).reverse, ?_, ?_, ?_⟩
  · rw [lastLine, ← List.reverse_append, List.takeWhile_append_dropWhile, List.reverse_reverse]
  · intro c hc
    rw [List.getLast?_reverse] at hc
    simpa using hrun.ends c hc
  · intro hmem
    simpa using hrun.all '\n' (List.mem_reverse.mp hmem)

/-- A character that ends no line goes on with the line behind it. -/
theorem IsLine.cons (h : IsLine [] line after) (hc : c ≠ '\n') : IsLine [] (c :: line) after := by
  constructor
  · simp
  · exact not_mem_dropLast_cons hc h.inner
  · intro hne
    rw [List.getLast?_cons, h.ends hne]
    rfl

/-- Looking ahead stops behind the first line feed. -/
theorem IsLine.firstLine_eq (h : IsLine [] line after) : firstLine (line ++ after) = line := by
  obtain ⟨-, hinner, hends⟩ := h
  induction line with
  | nil =>
    have hafter : after = [] := by
      by_contra hne
      cases hends hne
    rw [hafter]
    rfl
  | cons c line ih =>
    rw [List.cons_append, firstLine]
    cases line with
    | nil =>
      split
      · rfl
      · rename_i hc
        have hafter : after = [] := by
          by_contra hne
          exact hc (Option.some.inj (hends hne))
        rw [hafter]
        rfl
    | cons d line =>
      rw [List.dropLast_cons_cons] at hinner
      obtain ⟨hc, hline⟩ := not_or.mp (mt List.mem_cons.mpr hinner)
      rw [if_neg (Ne.symm hc), ih hline hends]

theorem exists_firstLine (t : Text) :
    ∃ after, t = firstLine t ++ after ∧ IsLine [] (firstLine t) after := by
  induction t with
  | nil => exact ⟨[], rfl, by simp, by simp [firstLine], by simp⟩
  | cons c cs ih =>
    unfold firstLine
    split
    · rename_i hc
      exact ⟨cs, rfl, by simp, by simp, by simp [hc]⟩
    · rename_i hc
      obtain ⟨after, hcs, hline⟩ := ih
      exact ⟨after, by rw [List.cons_append, ← hcs], hline.cons hc⟩

/-- A line starts at or before every offset in it. -/
theorem hasRange_lineStart (h : t.IsCut n) : t.HasRange (lineStart t n) n := by
  obtain ⟨htext, hsize⟩ := takeBytes_of_isCut h
  obtain ⟨s, hs, -⟩ := exists_lastLine (takeBytes n t)
  have hsum : size s + size (lastLine (takeBytes n t)) = n := by
    rw [← size_append, ← hs, hsize]
  refine ⟨s, lastLine (takeBytes n t), dropBytes n t, ?_, ?_, hsum⟩
  · rw [← hs, ← htext]
  · rw [lineStart, hsize]
    omega

/-- A line ends at or after every offset in it. -/
theorem hasRange_lineEnd (h : t.IsCut n) : t.HasRange n (lineEnd t n) := by
  obtain ⟨htext, hsize⟩ := takeBytes_of_isCut h
  obtain ⟨s, hs, -⟩ := exists_firstLine (dropBytes n t)
  refine ⟨takeBytes n t, firstLine (dropBytes n t), s, ?_, hsize, ?_⟩
  · rw [List.append_assoc, ← hs, ← htext]
  · rw [lineEnd, hsize]

namespace IsLine

/-- Every offset in a line has its start, if no line feed of the line comes before it. -/
theorem lineStart_eq (h : IsLine before (x ++ y) after) (hx : '\n' ∉ x) :
    lineStart (before ++ (x ++ y) ++ after) (size before + size x) = size before := by
  have htext : before ++ (x ++ y) ++ after = (before ++ x) ++ (y ++ after) := by simp
  rw [lineStart, htext, ← size_append, takeBytes_size, lastLine_eq h.starts hx, size_append,
    Nat.add_sub_cancel]

/-- What is left of a line from an offset on. -/
theorem right (h : IsLine before (x ++ y) after) (hx : '\n' ∉ x) : IsLine [] y after := by
  obtain ⟨-, hinner, hends⟩ := h
  cases y with
  | nil =>
    refine ⟨by simp, by simp, ?_⟩
    intro hne
    have hlast := hends hne
    rw [List.append_nil] at hlast
    exact absurd (List.mem_of_getLast? hlast) hx
  | cons c y =>
    rw [List.dropLast_append_of_ne_nil (List.cons_ne_nil c y)] at hinner
    refine ⟨by simp, fun hmem => hinner (List.mem_append_right x hmem), ?_⟩
    intro hne
    rw [← hends hne, List.getLast?_append, List.getLast?_cons, Option.some_or]

/-- Every offset in a line has its end, if no line feed of the line comes before it. -/
theorem lineEnd_eq (h : IsLine before (x ++ y) after) (hx : '\n' ∉ x) :
    lineEnd (before ++ (x ++ y) ++ after) (size before + size x) =
      size before + size (x ++ y) := by
  have htext : before ++ (x ++ y) ++ after = (before ++ x) ++ (y ++ after) := by simp
  rw [lineEnd, htext, ← size_append, dropBytes_size, (h.right hx).firstLine_eq,
    size_append, size_append, Nat.add_assoc]

end IsLine

/-- An offset stands in a line, with no line feed between the start of the line and it. -/
theorem IsCut.exists_isLine (h : t.IsCut n) :
    ∃ before x y after, t = before ++ (x ++ y) ++ after ∧ n = size before + size x ∧
      IsLine before (x ++ y) after ∧ '\n' ∉ x := by
  obtain ⟨a, b, rfl, rfl⟩ := h
  obtain ⟨before, ha, hstart, hx⟩ := exists_lastLine a
  obtain ⟨after, hb, hright⟩ := exists_firstLine b
  generalize lastLine a = x at ha hx
  generalize firstLine b = y at hb hright
  subst ha hb
  refine ⟨before, x, y, after, by simp, size_append before x, ⟨hstart, ?_, ?_⟩, hx⟩
  · cases y with
    | nil =>
      rw [List.append_nil]
      exact fun hmem => hx (List.dropLast_subset x hmem)
    | cons c y =>
      rw [List.dropLast_append_of_ne_nil (List.cons_ne_nil c y), List.mem_append, not_or]
      exact ⟨hx, hright.inner⟩
  · intro hne
    rw [List.getLast?_append, hright.ends hne]
    rfl

/-- An offset before the end of a line, and not before its start, splits the line. -/
theorem IsLine.split (h : IsLine before line after) (hm : (before ++ line ++ after).IsCut m)
    (hle : size before ≤ m) (hlt : m < size before + size line) :
    ∃ x y, line = x ++ y ∧ m = size before + size x ∧ '\n' ∉ x := by
  obtain ⟨a, b, hab, rfl⟩ := hm
  rw [List.append_assoc] at hab
  obtain ⟨x, rfl, hline⟩ := append_eq_of_size_le hab hle
  rw [size_append] at hlt
  obtain ⟨y, rfl, -⟩ := append_eq_of_size_le hline.symm (by omega)
  have hy : y ≠ [] := by
    rintro rfl
    simp at hlt
  refine ⟨x, y, rfl, size_append before x, ?_⟩
  have hinner := h.inner
  rw [List.dropLast_append_of_ne_nil hy] at hinner
  exact fun hmem => hinner (List.mem_append_left _ hmem)

/-- Where the line of a number starts, the first line being number zero: each line starts where
the one before it ends. -/
def lineOffset (t : Text) (k : Nat) : Nat :=
  (lineEnd t)^[k] 0

theorem lineEnd_append (s t : Text) (n : Nat) :
    lineEnd (s ++ t) (size s + n) = size s + lineEnd t n := by
  rw [lineEnd, dropBytes_append t (Nat.le_add_right _ _), Nat.add_sub_cancel_left, lineEnd,
    Nat.add_assoc]

@[simp]
theorem lineOffset_zero (t : Text) : lineOffset t 0 = 0 := rfl

/-- Behind the first line the lines are those of the rest. -/
theorem lineOffset_succ (h : IsLine [] line after) (k : Nat) :
    lineOffset (line ++ after) (k + 1) = size line + lineOffset after k := by
  have hfirst : lineEnd (line ++ after) 0 = size line := by
    have hdrop : dropBytes 0 (line ++ after) = line ++ after := dropBytes_size [] _
    rw [lineEnd, hdrop, h.firstLine_eq, Nat.zero_add]
  have hiterate (k m : Nat) :
      (lineEnd (line ++ after))^[k] (size line + m) = size line + (lineEnd after)^[k] m := by
    induction k generalizing m with
    | zero => rfl
    | succ k ih => rw [Function.iterate_succ_apply, Function.iterate_succ_apply, lineEnd_append, ih]
  rw [lineOffset, Function.iterate_succ_apply, hfirst]
  exact hiterate k 0

/-- A line that is not empty is the first of the lines from it on. -/
theorem IsLine.lineList_eq (h : IsLine [] line after) (hne : line ≠ []) :
    lineList (line ++ after) = line :: lineList after := by
  by_cases hlast : line.getLast? = some '\n'
  · have hline : line.dropLast ++ ['\n'] = line := List.dropLast_append_getLast? _ hlast
    rw [← hline, List.append_assoc, List.singleton_append]
    exact lineList_line h.inner after
  · have hafter : after = [] := by
      by_contra hmore
      exact hlast (h.ends hmore)
    rw [hafter, List.append_nil, lineList_last hne (not_mem_of_dropLast h.inner hlast)]
    rfl

theorem slice_append (s t : Text) (n m : Nat) :
    slice (s ++ t) (size s + n) (size s + m) = slice t n m := by
  rw [slice, slice, dropBytes_append t (Nat.le_add_right _ _), Nat.add_sub_cancel_left,
    Nat.add_sub_add_left]

/-- Going on from line to line gets to the end of the text by way of all its lines. -/
theorem lineOffset_lines (t : Text) :
    lineOffset t (lineList t).length = size t ∧
      (∀ k < (lineList t).length, lineOffset t k < lineOffset t (k + 1)) ∧
      (List.range (lineList t).length).map
        (fun k => slice t (lineOffset t k) (lineOffset t (k + 1))) = lineList t := by
  induction hlines : lineList t generalizing t with
  | nil =>
    have ht : t = [] := by rw [← flatten_lineList t, hlines, List.flatten_nil]
    rw [ht]
    simp
  | cons line lines ih =>
    obtain ⟨after, ht, hfirst⟩ := exists_firstLine t
    have hne : firstLine t ≠ [] := by
      cases t with
      | nil => cases hlines
      | cons c t =>
        unfold firstLine
        split <;> simp
    have hsplit := hfirst.lineList_eq hne
    rw [← ht, hlines] at hsplit
    obtain ⟨rfl, rfl⟩ := List.cons.inj hsplit
    obtain ⟨hend, hgrows, hslices⟩ := ih after rfl
    generalize firstLine t = line at ht hne hfirst
    subst ht
    have hpos : 0 < size line :=
      Nat.lt_of_lt_of_le (List.length_pos_iff.mpr hne) (length_le_size line)
    refine ⟨?_, ?_, ?_⟩
    · rw [List.length_cons, lineOffset_succ hfirst, hend, size_append]
    · intro k hk
      cases k with
      | zero =>
        rw [lineOffset_succ hfirst]
        simpa using hpos
      | succ k =>
        rw [lineOffset_succ hfirst, lineOffset_succ hfirst]
        have hk := hgrows k (Nat.lt_of_succ_lt_succ hk)
        omega
    · have hcut : slice (line ++ after) 0 (size line) = line := by
        have hslice := slice_size [] line after
        simpa using hslice
      rw [List.length_cons, List.range_succ_eq_map, List.map_cons, List.map_map]
      simp only [Function.comp_def, lineOffset_zero, lineOffset_succ hfirst, Nat.add_zero, hcut,
        slice_append, hslices]

/-- The bounds that looking back and looking ahead find are those of one line, for all offsets in
it; and the lines that follow each other from the start of a text make it up. -/
theorem lines_partition (t : Text) :
    (∀ n, t.IsCut n →
      (lineStart t n ≤ n ∧ n ≤ lineEnd t n) ∧
      (t.IsCut (lineStart t n) ∧ t.IsCut (lineEnd t n)) ∧
      '\n' ∉ slice t (lineStart t n) n ∧
      '\n' ∉ (slice t n (lineEnd t n)).dropLast ∧
      ∀ m, t.IsCut m → lineStart t n ≤ m → m < lineEnd t n →
        lineStart t m = lineStart t n ∧ lineEnd t m = lineEnd t n) ∧
    ∃ count, lineOffset t count = size t ∧
      (∀ k < count, lineOffset t k < lineOffset t (k + 1)) ∧
      ((List.range count).map fun k =>
        slice t (lineOffset t k) (lineOffset t (k + 1))).flatten = t := by
  constructor
  · intro n hn
    have hback := hasRange_lineStart hn
    have hahead := hasRange_lineEnd hn
    refine ⟨⟨hback.le, hahead.le⟩, ⟨hback.isCut_start, hahead.isCut_stop⟩, ?_⟩
    obtain ⟨before, x, y, after, rfl, rfl, hline, hx⟩ := hn.exists_isLine
    have hbefore : slice (before ++ (x ++ y) ++ after) (size before) (size before + size x) = x := by
      have hslice := slice_size before x (y ++ after)
      simpa using hslice
    have hbehind : slice (before ++ (x ++ y) ++ after) (size before + size x)
        (size before + size (x ++ y)) = y := by
      have hslice := slice_size (before ++ x) y after
      simpa [Nat.add_assoc] using hslice
    rw [hline.lineStart_eq hx, hline.lineEnd_eq hx, hbefore, hbehind]
    refine ⟨hx, (hline.right hx).inner, ?_⟩
    intro m hm hle hlt
    obtain ⟨x', y', hsplit, rfl, hx'⟩ := hline.split hm hle hlt
    rw [hsplit] at hline ⊢
    exact ⟨hline.lineStart_eq hx', hline.lineEnd_eq hx'⟩
  · obtain ⟨hend, hgrows, hslices⟩ := lineOffset_lines t
    refine ⟨(lineList t).length, hend, hgrows, ?_⟩
    rw [hslices, flatten_lineList]

/-- Three lines, one of them empty, the last one without a line feed. -/
def sampleLines : Text := "é\n\nab"

theorem lines_partition_sample :
    sampleLines.IsCut 4 ∧ sampleLines.IsCut 5 ∧
      lineStart sampleLines 4 ≤ 5 ∧ 5 < lineEnd sampleLines 4 ∧
      lineStart sampleLines 5 = lineStart sampleLines 4 ∧
      lineEnd sampleLines 5 = lineEnd sampleLines 4 := by
  have hfour : sampleLines.IsCut 4 := ⟨['é', '\n', '\n'], ['a', 'b'], rfl, rfl⟩
  have hfive : sampleLines.IsCut 5 := ⟨['é', '\n', '\n', 'a'], ['b'], rfl, rfl⟩
  have hle : lineStart sampleLines 4 ≤ 5 := by decide
  have hlt : 5 < lineEnd sampleLines 4 := by decide
  obtain ⟨-, -, -, -, hsame⟩ := (lines_partition sampleLines).1 4 hfour
  exact ⟨hfour, hfive, hle, hlt, hsame 5 hfive hle hlt⟩

end Pagewright.Text
