import Mathlib.Data.List.DropRight
import Pagewright.Proofs.Text.Lines
import Pagewright.Proofs.Text.Replace
import Pagewright.Proofs.Text.Trimming
import Pagewright.Proofs.Wire.Declaration
import Pagewright.Route.Docstring

namespace Pagewright.Docstring

open Syntax Text

variable {t : Text} {ls before after : List Text}

def kept (ls : List Text) : List Text :=
  (ls.dropWhile List.isEmpty).rdropWhile List.isEmpty

theorem kept_around (ls : List Text) : ∃ before after, ls = before ++ kept ls ++ after ∧
    (∀ l ∈ before, l = []) ∧ ∀ l ∈ after, l = [] := by
  refine ⟨ls.takeWhile List.isEmpty, (ls.dropWhile List.isEmpty).rtakeWhile List.isEmpty,
    ?_, ?_, ?_⟩
  · rw [kept, List.append_assoc, List.rdropWhile_append_rtakeWhile,
      List.takeWhile_append_dropWhile]
  · intro l hl
    exact List.isEmpty_iff.mp (List.all_eq_true.mp List.all_takeWhile l hl)
  · intro l hl
    exact List.isEmpty_iff.mp (List.mem_rtakeWhile_imp hl)

theorem mem_of_mem_kept {l : Text} (h : l ∈ kept ls) : l ∈ ls := by
  obtain ⟨before, after, hls, -, -⟩ := kept_around ls
  rw [hls]
  simp [h]

theorem head?_kept (ls : List Text) : (kept ls).head? ≠ some [] := by
  intro hhead
  obtain ⟨rest, hrest⟩ := List.rdropWhile_prefix List.isEmpty (l := ls.dropWhile List.isEmpty)
  have hfirst := List.head?_dropWhile_not List.isEmpty ls
  rw [kept] at hhead
  rw [← hrest, List.head?_append, hhead] at hfirst
  cases hfirst

theorem getLast?_kept (ls : List Text) : (kept ls).getLast? ≠ some [] := by
  intro hlast
  have hne : kept ls ≠ [] := by
    intro hnil
    rw [hnil] at hlast
    cases hlast
  have hsolid := List.rdropWhile_last_not List.isEmpty (ls.dropWhile List.isEmpty) hne
  rw [List.getLast?_eq_some_getLast hne] at hlast
  exact hsolid (List.isEmpty_iff.mpr (Option.some.inj hlast))

theorem join_cons (l : Text) (ls : List Text) :
    ∃ w, join ['\n'] (l :: ls) = l ++ w := by
  cases ls with
  | nil => exact ⟨[], by simp [join]⟩
  | cons l' ls =>
    refine ⟨'\n' :: join ['\n'] (l' :: ls), ?_⟩
    rw [join, List.intercalate_cons_cons, List.append_assoc]
    rfl

theorem join_snoc (ls : List Text) (l : Text) :
    ∃ w, join ['\n'] (ls ++ [l]) = w ++ l := by
  induction ls with
  | nil => exact ⟨[], by simp [join]⟩
  | cons l' ls ih =>
    obtain ⟨w, hw⟩ := ih
    cases hls : ls ++ [l] with
    | nil => simp at hls
    | cons l'' ls' =>
      rw [hls, join] at hw
      rw [List.cons_append, hls, join, List.intercalate_cons_cons, hw, ← List.append_assoc]
      exact ⟨_, rfl⟩

/-- Empty lines at the start are blanks before the others. -/
theorem join_before (h : ∀ l ∈ before, l = []) (ls : List Text) :
    ∃ w, IsSpace w ∧ join ['\n'] (before ++ ls) = w ++ join ['\n'] ls := by
  induction before with
  | nil => exact ⟨[], by simp [IsSpace], rfl⟩
  | cons l before ih =>
    obtain ⟨w, hspace, hw⟩ := ih fun m hm => h m (List.mem_cons_of_mem l hm)
    rw [h l List.mem_cons_self, List.cons_append]
    cases hls : before ++ ls with
    | nil =>
      obtain ⟨rfl, rfl⟩ := List.append_eq_nil_iff.mp hls
      exact ⟨[], by simp [IsSpace], by simp [join]⟩
    | cons l' ls' =>
      rw [hls] at hw
      refine ⟨'\n' :: w, List.forall_mem_cons.mpr ⟨rfl, hspace⟩, ?_⟩
      rw [List.cons_append, ← hw]
      rfl

/-- Empty lines at the end are blanks behind the others. -/
theorem join_after (h : ∀ l ∈ after, l = []) (ls : List Text) :
    ∃ w, IsSpace w ∧ join ['\n'] (ls ++ after) = join ['\n'] ls ++ w := by
  induction ls with
  | nil =>
    obtain ⟨w, hspace, hw⟩ := join_before h []
    rw [List.append_nil] at hw
    exact ⟨w, hspace, by simpa [join] using hw⟩
  | cons l ls ih =>
    obtain ⟨w, hspace, hw⟩ := ih
    cases ls with
    | nil =>
      cases after with
      | nil => exact ⟨[], by simp [IsSpace], by simp⟩
      | cons l' after =>
        refine ⟨'\n' :: w, List.forall_mem_cons.mpr ⟨rfl, hspace⟩, ?_⟩
        have hw : join ['\n'] (l' :: after) = w := hw
        rw [← hw]
        simp [join]
    | cons l' ls =>
      refine ⟨w, hspace, ?_⟩
      simp only [join, List.cons_append, List.intercalate_cons_cons, List.append_assoc] at hw ⊢
      rw [hw]

/-- Trimmed lines make a trimmed text unless the first or the last one is empty. -/
theorem isTrimmed_join (hhead : ls.head? ≠ some []) (hlast : ls.getLast? ≠ some [])
    (h : ∀ l ∈ ls, IsTrimmed l) : IsTrimmed (join ['\n'] ls) := by
  constructor
  · cases ls with
    | nil => simp [join]
    | cons l ls =>
      obtain ⟨w, hw⟩ := join_cons l ls
      have hl := (h l List.mem_cons_self).head
      cases l with
      | nil => exact absurd rfl hhead
      | cons c l =>
        rw [hw]
        exact hl
  · rcases List.eq_nil_or_concat' ls with rfl | ⟨init, l, rfl⟩
    · simp [join]
    · obtain ⟨w, hw⟩ := join_snoc init l
      have hl := (h l (by simp)).last
      cases hend : l.getLast? with
      | none =>
        rw [List.getLast?_eq_none_iff.mp hend] at hlast
        simp at hlast
      | some c =>
        rw [hw, List.getLast?_append, hend]
        rw [hend] at hl
        exact hl

/-- Trimming what lines were joined to takes the empty lines at the ends away. -/
theorem trim_join (h : ∀ l ∈ ls, IsTrimmed l) :
    trim (join ['\n'] ls) = join ['\n'] (kept ls) := by
  have hkept : IsTrimmed (join ['\n'] (kept ls)) :=
    isTrimmed_join (head?_kept ls) (getLast?_kept ls) fun l hl => h l (mem_of_mem_kept hl)
  obtain ⟨before, after, hls, hbefore, hafter⟩ := kept_around ls
  obtain ⟨w, hw, hstart⟩ := join_before hbefore (kept ls ++ after)
  obtain ⟨w', hw', hend⟩ := join_after hafter (kept ls)
  calc trim (join ['\n'] ls)
      = trim (w ++ join ['\n'] (kept ls) ++ w') := by
        rw [List.append_assoc, ← hend, ← hstart, ← List.append_assoc, ← hls]
    _ = join ['\n'] (kept ls) := by rw [trim_around hw hw', hkept.trim_eq]

/-- A trimmed line holds no end of a line. -/
theorem isLine_trimmed {l : Text} (hl : l ∈ (lines t).map trim) :
    '\n' ∉ l ∧ l.getLast? ≠ some '\r' ∧ IsTrimmed l := by
  obtain ⟨line, hline, rfl⟩ := List.mem_map.mp hl
  have htrimmed := isTrimmed_trim line
  refine ⟨?_, ?_, htrimmed⟩
  · obtain ⟨b, b', hsplit, -, -⟩ := exists_trim line
    intro hmem
    apply not_mem_lines hline
    rw [hsplit]
    simp [hmem]
  · intro hreturn
    exact absurd (htrimmed.last '\r' hreturn) (by decide)

theorem clean_eq (t : Text) : clean t = join ['\n'] (kept ((lines t).map trim)) :=
  trim_join fun _ hl => (isLine_trimmed hl).2.2

theorem lines_clean (t : Text) : lines (clean t) = kept ((lines t).map trim) := by
  rw [clean_eq]
  apply lines_join (getLast?_kept _)
  intro l hl
  obtain ⟨hfeed, hreturn, -⟩ := isLine_trimmed (mem_of_mem_kept hl)
  exact ⟨hfeed, hreturn⟩

theorem isLine_clean {l : Text} (hl : l ∈ lines (clean t)) : '\n' ∉ l ∧ IsTrimmed l := by
  rw [lines_clean] at hl
  obtain ⟨hfeed, -, htrimmed⟩ := isLine_trimmed (mem_of_mem_kept hl)
  exact ⟨hfeed, htrimmed⟩

theorem clean_clean (t : Text) : clean (clean t) = clean t := by
  have hsame : (lines (clean t)).map trim = lines (clean t) := by
    rw [List.map_congr_left fun l hl => (isLine_clean hl).2.trim_eq, List.map_id']
  rw [clean, hsame, lines_clean, ← clean_eq]
  exact (isTrimmed_trim _).trim_eq

/-- The documentation of a line is one line. -/
theorem docLine_ended {line : Text} (h : '\n' ∉ line) :
    ∃ body, Client.docLine line = body ++ ['\n'] ∧ '\n' ∉ body := by
  unfold Client.docLine
  split
  · exact ⟨[' ', '*'], rfl, by decide⟩
  · refine ⟨" * " ++ replace line "*/" "*\\/", rfl, ?_⟩
    have hmargin : '\n' ∉ " * ".toList := by decide
    have htext : '\n' ∉ replace line "*/" "*\\/" := not_mem_replace h (by decide)
    rw [List.mem_append, not_or]
    exact ⟨hmargin, htext⟩

/-- A docstring in its normal form: it has no blanks at its ends or at those of its lines, it is
the trimmed lines of the constant without the blank ones at the ends, and cleaning changes nothing
more. The client writes one line of its comment for each line. -/
theorem clean_normal (s s' : Span) (t : Text) (rest : List Stmt) :
    ofBody? (.expr s (.constant s' (.text t)) :: rest) = some (clean t) ∧
      IsTrimmed (clean t) ∧
      (∀ line ∈ lines (clean t), IsTrimmed line) ∧
      lines (clean t) = kept ((lines t).map trim) ∧
      clean t = join ['\n'] (lines (clean t)) ∧
      clean (clean t) = clean t ∧
      ∀ r : Route, r.docstring = some (clean t) → ∃ comment,
        Client.function r = "/**\n" ++ comment ++ (r.params.flatMap Client.paramLine
          ++ " * @returns \x7b" ++ Client.typeName r.returnType ++ "\x7d\n */\n"
          ++ Wire.declaration r) ∧
        lineList comment = (lines (clean t)).map Client.docLine := by
  refine ⟨rfl, isTrimmed_trim _, fun l hl => (isLine_clean hl).2, lines_clean t, ?_,
    clean_clean t, ?_⟩
  · rw [lines_clean]
    exact clean_eq t
  · intro r hr
    refine ⟨(lines (clean t)).flatMap Client.docLine, ?_, ?_⟩
    · rw [Wire.function_text]
      unfold Client.docBlock
      simp only [hr, Option.getD_some, List.append_assoc]
    · apply lineList_flatMap
      intro l hl
      exact docLine_ended (isLine_clean hl).1

/-- Blanks of several kinds around the lines, a blank line between them and blank lines at the
ends. -/
def sampleText : Text := "\r\n\t Says hello. \r\n\u00A0\n  to */ all\u2003\n   "

def sampleRoute : Route := ⟨"hello", [], none, some (clean sampleText), []⟩

theorem clean_normal_sample :
    sampleRoute.docstring = some (clean sampleText) ∧
      lines (clean sampleText) = ["Says hello.", "", "to */ all"] ∧ ∃ comment,
        Client.function sampleRoute = "/**\n" ++ comment ++ ([].flatMap Client.paramLine
          ++ " * @returns \x7b" ++ Client.typeName none ++ "\x7d\n */\n"
          ++ Wire.declaration sampleRoute) ∧
        lineList comment = [" * Says hello.\n", " *\n", " * to *\\/ all\n"] := by
  have hlines : lines (clean sampleText) = ["Says hello.", "", "to */ all"] := by decide +kernel
  obtain ⟨-, -, -, -, -, -, hcomment⟩ := clean_normal ⟨0, 0⟩ ⟨0, 0⟩ sampleText []
  obtain ⟨comment, hfunction, hcomment⟩ := hcomment sampleRoute rfl
  rw [hlines] at hcomment
  have hshown : ["Says hello.".toList, "".toList, "to */ all".toList].map Client.docLine =
      [" * Says hello.\n", " *\n", " * to *\\/ all\n"] := by decide +kernel
  exact ⟨rfl, hlines, comment, hfunction, hcomment.trans hshown⟩

end Pagewright.Docstring
