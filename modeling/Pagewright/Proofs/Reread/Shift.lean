import Mathlib.Tactic.SplitIfs
import Pagewright.Proofs.Lexing.Softening
import Pagewright.Proofs.Reread.Steps

namespace Pagewright.Syntax

def Reader.at (s : Reader) (offset : Nat) : Reader :=
  { s with rest := ⟨s.rest.text, offset⟩ }

/-- A step that gives tokens of the same kinds wherever its text starts. -/
def Shifts (step : Reader → Except Fault (List Token × Reader)) (s : Reader) : Prop :=
  ∀ ts s', step s = .ok (ts, s') → ∀ offset, ∃ ts' place,
    step (s.at offset) = .ok (ts', s'.at place) ∧ ts'.map Token.kind = ts.map Token.kind

/-- The margin of a line does not depend on the offset. -/
theorem readMargin_shift {t : Text} {offset : Nat} {own : Indentation} {comment : Bool} {m : Margin}
    (h : readMargin t offset own comment = .ok m) (offset' : Nat) : ∃ place,
      readMargin t offset' own comment = .ok ⟨m.indentation, m.rest.text, place⟩ := by
  induction t generalizing offset own comment offset' with
  | nil =>
    obtain rfl := Except.ok.inj h
    exact ⟨offset', rfl⟩
  | cons c cs ih =>
    unfold readMargin at h ⊢
    split_ifs at h ⊢
    · exact ih h _
    · exact ih h _
    · exact ih h _
    · exact ih h _
    · exact ih h _
    · exact ih h _
    · obtain rfl := Except.ok.inj h
      exact ⟨offset', rfl⟩

namespace Reader

variable {s : Reader}

theorem shifts_enterLine (s : Reader) : Shifts enterLine s := by
  intro ts s' h offset
  obtain ⟨margin, hmargin, h⟩ := bind_eq_ok_iff.mp h
  obtain ⟨place, hmargin'⟩ := readMargin_shift hmargin offset
  simp only [enterLine, Reader.at, hmargin', bind, Except.bind]
  simp only at h
  split at h
  · cases h
  · obtain ⟨rfl, rfl⟩ := Prod.mk.inj (Except.ok.inj h)
    exact ⟨[], place, rfl, rfl⟩
  · obtain ⟨rfl, rfl⟩ := Prod.mk.inj (Except.ok.inj h)
    exact ⟨[⟨.indent, place - margin.indentation.spaces - margin.indentation.tabs, place⟩], place,
      rfl, rfl⟩
  · split at h
    · cases h
    · rename_i n kept hclose
      split at h
      · cases h
      · rename_i hkept
        obtain ⟨rfl, rfl⟩ := Prod.mk.inj (Except.ok.inj h)
        rw [if_neg hkept]
        exact ⟨List.replicate n ⟨.dedent, place, place⟩, place, rfl, by simp⟩

theorem shifts_enter (s : Reader) : Shifts enter s := by
  intro ts s' h offset
  unfold enter at h ⊢
  split at h
  · rename_i hline
    obtain ⟨ts', place, hread, hkinds⟩ := shifts_enterLine s ts s' h offset
    exact ⟨ts', place, by rw [← hread]; exact if_pos hline, hkinds⟩
  · rename_i hline
    obtain ⟨rfl, rfl⟩ := Prod.mk.inj (Except.ok.inj h)
    exact ⟨[], offset, if_neg hline, rfl⟩

/-- A gap is passed over at every offset. -/
theorem shifts_gap {c : Char} {cs : Text} (hc : s.rest.text = c :: cs) (hgap : opensGap c) :
    Shifts (readInLine · c) s := by
  intro ts s' h offset
  have hc' : (s.at offset).rest.text = c :: cs := hc
  have hnext {r r' : Rest} {d : Char} (h : r.next? = some (d, r')) (offset : Nat) :
      ∃ place, Rest.next? ⟨r.text, offset⟩ = some (d, ⟨r'.text, place⟩) := by
    obtain ⟨w, -, hw, hagain⟩ := Rest.next?_ahead h
    rw [hw]
    exact hagain r'.text offset rfl
  dsimp only at h ⊢
  rw [readInLine_opensGap hc hgap] at h
  rw [readInLine_opensGap hc' hgap]
  split at h
  · rename_i hcomment
    rw [if_pos hcomment]
    obtain ⟨rfl, rfl⟩ := Prod.mk.inj (Except.ok.inj h)
    exact ⟨[], _, rfl, rfl⟩
  · rename_i hcomment
    rw [if_neg hcomment]
    split at h
    · rename_i hend
      rw [if_pos hend]
      split at h
      · rename_i hnone
        rw [hasText hc] at hnone
        exact absurd hnone (next_ne_none _ _ _)
      · rename_i d r hd
        obtain ⟨place, hread⟩ := hnext hd offset
        have hread' : (s.at offset).rest.next? = some (d, ⟨r.text, place⟩) := hread
        simp only [hread']
        split at h
        · rename_i hdepth
          obtain ⟨rfl, rfl⟩ := Prod.mk.inj (Except.ok.inj h)
          have hdepth' : (s.at offset).depth = 0 := hdepth
          rw [if_pos hdepth']
          exact ⟨[⟨.newline, offset, place⟩], place, rfl, rfl⟩
        · rename_i hdepth
          obtain ⟨rfl, rfl⟩ := Prod.mk.inj (Except.ok.inj h)
          have hdepth' : ¬(s.at offset).depth = 0 := hdepth
          rw [if_neg hdepth']
          exact ⟨[], place, rfl, rfl⟩
    · rename_i hend
      rw [if_neg hend]
      split at h
      · rename_i hblank
        obtain ⟨rfl, rfl⟩ := Prod.mk.inj (Except.ok.inj h)
        rw [if_pos hblank]
        exact ⟨[], _, rfl, rfl⟩
      · rename_i hblank
        rw [if_neg hblank]
        unfold continueLine at h ⊢
        simp only at h
        split at h
        · rename_i r hd
          split at h
          · cases h
          · rename_i hmore
            obtain ⟨rfl, rfl⟩ := Prod.mk.inj (Except.ok.inj h)
            obtain ⟨place, hread⟩ := hnext hd (offset + 1)
            have hskip : (s.at offset).rest.skip 1 = ⟨(s.rest.skip 1).text, offset + 1⟩ := rfl
            simp only [hskip, hread]
            rw [if_neg hmore]
            exact ⟨[], place, rfl, rfl⟩
        · cases h

/-- What is read inside a line does not depend on the offset. -/
theorem shifts_readInLine {c : Char} {cs : Text} (hc : s.rest.text = c :: cs) :
    Shifts (readInLine · c) s := by
  intro ts s' h offset
  rcases (readInLine_finds hc h).opens_or_word with hgap | ⟨t, rfl, hword⟩
  · exact shifts_gap hc hgap ts s' h offset
  · obtain ⟨hdepth, hsame, w, hw, hagain⟩ := again_readInLine hc h hword
    obtain ⟨t', place, hkind, hread⟩ := hagain (s.at offset) s'.rest.text s'.depth
      (by rw [List.cons_append, ← hw]; exact hc) (.same _) hdepth
    have hblocks := (readInLine_took hc h).blocks
    refine ⟨[t'], place, ?_, by simp [hkind]⟩
    simp only [Reader.at] at hread ⊢
    rw [hread, hsame, hblocks]

theorem finish_shift (s : Reader) (offset : Nat) :
    (s.at offset).finish.fault.isNone = s.finish.fault.isNone ∧
      (s.at offset).finish.tokens.map Token.kind = s.finish.tokens.map Token.kind := by
  unfold finish
  by_cases hdepth : s.depth = 0
  · have hdepth' : (s.at offset).depth = 0 := hdepth
    simp only [hdepth, hdepth', ne_eq, not_true_eq_false, if_false]
    by_cases hline : s.atLineStart = true <;> simp [Reader.at, hline]
  · have hdepth' : (s.at offset).depth ≠ 0 := hdepth
    simp [hdepth, hdepth']

/-- What is read from a text that is read to its end does not depend on where it starts. -/
theorem run_shift {fuel : Nat} (h : (s.run fuel).fault = none) (offset : Nat) :
    ((s.at offset).run fuel).fault = none ∧
      ((s.at offset).run fuel).tokens.map Token.kind = (s.run fuel).tokens.map Token.kind := by
  induction fuel generalizing s offset with
  | zero => cases h
  | succ fuel ih =>
    cases henter : s.enter with
    | error f =>
      unfold enter at henter
      rw [run, henter] at h
      cases h
    | ok p =>
      obtain ⟨margin, s₁⟩ := p
      obtain ⟨margin', place, henter', hmargin⟩ := shifts_enter s margin s₁ henter offset
      unfold enter at henter henter'
      rw [run, henter] at h
      rw [run, run, henter, henter']
      cases htext : s₁.rest.text with
      | nil =>
        have htext' : (s₁.at place).rest.text = [] := htext
        simp only [htext, htext'] at h ⊢
        obtain ⟨hfault, htokens⟩ := finish_shift s₁ place
        rw [Option.isNone_iff_eq_none.mpr h, Option.isNone_iff_eq_none] at hfault
        rw [List.map_append, List.map_append, hmargin, htokens]
        exact ⟨hfault, rfl⟩
      | cons c cs =>
        have htext' : (s₁.at place).rest.text = c :: cs := htext
        simp only [htext, htext'] at h ⊢
        cases hread : s₁.readInLine c with
        | error f =>
          rw [hread] at h
          cases h
        | ok q =>
          obtain ⟨found, s₂⟩ := q
          obtain ⟨found', place', hread', hfound⟩ := shifts_readInLine htext found s₂ hread place
          rw [hread] at h
          obtain ⟨hfault, htokens⟩ := ih h place'
          dsimp only at hread'
          simp only [hread', List.map_append, hmargin, hfound, htokens, hfault, and_self]

end Reader

/-- The tokens of a text that is read to its end do not depend on where it starts. -/
theorem Stream.ofText_shift {t : Text} {offset : Nat} {isModule : Bool}
    (h : (Stream.ofText t offset isModule).fault = none) (offset' : Nat) :
    (Stream.ofText t offset' isModule).fault = none ∧
      (Stream.ofText t offset' isModule).tokens.map Token.kind =
        (Stream.ofText t offset isModule).tokens.map Token.kind := by
  have hstart : Reader.start t offset' =
      (Reader.start t offset).at (Reader.start t offset').rest.offset := by
    unfold Reader.start
    split <;> rfl
  simp only [Stream.ofText] at h ⊢
  obtain ⟨hfault, htokens⟩ := Reader.run_shift h (Reader.start t offset').rest.offset
  rw [soften_kinds, soften_kinds, hstart, htokens]
  exact ⟨hfault, rfl⟩

end Pagewright.Syntax
