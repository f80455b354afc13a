import Pagewright.Proofs.Lexing.Advance

namespace Pagewright.Syntax

open Text Rest

def Stream.after (ts : List Token) (s : Stream) : Stream :=
  { s with tokens := ts ++ s.tokens }

@[simp]
theorem Stream.after_nil (s : Stream) : s.after [] = s := rfl

@[simp]
theorem Stream.after_append (ts ts' : List Token) (s : Stream) :
    s.after (ts ++ ts') = (s.after ts').after ts := by
  simp [Stream.after]

namespace Reader

theorem enterLine_reaches {s s' : Reader} {ts : List Token} (h : s.enterLine = .ok (ts, s')) :
    s.rest.Reaches s'.rest := by
  unfold enterLine at h
  simp only [bind, Except.bind, pure, Except.pure, throw, throwThe, MonadExceptOf.throw] at h
  split at h
  · simp at h
  · rename_i m hm
    have hr := readMargin_reaches hm
    split at h
    · simp at h
    · obtain ⟨-, rfl⟩ := Prod.mk.inj (Except.ok.inj h)
      exact hr
    · obtain ⟨-, rfl⟩ := Prod.mk.inj (Except.ok.inj h)
      exact hr
    · split at h
      · simp at h
      · split at h
        · simp at h
        · obtain ⟨-, rfl⟩ := Prod.mk.inj (Except.ok.inj h)
          exact hr

def enter (s : Reader) : Except Fault (List Token × Reader) :=
  if s.atLineStart then s.enterLine else .ok ([], s)

theorem enter_reaches {s s' : Reader} {ts : List Token} (h : s.enter = .ok (ts, s')) :
    s.rest.Reaches s'.rest := by
  unfold enter at h
  split at h
  · exact enterLine_reaches h
  · obtain ⟨-, rfl⟩ := Prod.mk.inj (Except.ok.inj h)
    exact .refl _

/-- One step: a line is entered if one starts, and something is read inside it. -/
structure Step (s : Reader) (ts : List Token) (s' : Reader) where
  margin : List Token
  inside : Reader
  first : Char
  others : Text
  found : List Token
  enter : s.enter = .ok (margin, inside)
  text : inside.rest.text = first :: others
  read : inside.readInLine first = .ok (found, s')
  tokens : ts = margin ++ found

theorem Step.took {s s' : Reader} {ts : List Token} (h : Step s ts s') :
    Took h.inside h.found s' :=
  readInLine_took h.text h.read

theorem Step.passes {s s' : Reader} {ts : List Token} (h : Step s ts s') :
    s.rest.Passes s'.rest :=
  (enter_reaches h.enter).passes h.took.passes

/-- A run of steps from one place to another, with the tokens that it gives. -/
inductive Reads : Reader → List Token → Reader → Prop where
  | done (s : Reader) : Reads s [] s
  | step {s s' s'' : Reader} {ts later : List Token} (first : Step s ts s')
      (run : Reads s' later s'') : Reads s (ts ++ later) s''

theorem Reads.trans {s s' s'' : Reader} {ts later : List Token} (h : Reads s ts s')
    (h' : Reads s' later s'') : Reads s (ts ++ later) s'' := by
  induction h with
  | done => exact h'
  | step first _ ih =>
    rw [List.append_assoc]
    exact .step first (ih h')

theorem run_step {s s' : Reader} {ts : List Token} (h : Step s ts s') (n : Nat) :
    s.run (n + 1) = (s'.run n).after ts := by
  obtain ⟨margin, s₁, c, cs, found, henter, htext, hread, rfl⟩ := h
  unfold enter at henter
  rw [run, henter]
  simp only [htext, hread]
  rfl

/-- With more fuel than characters, the tokens do not depend on the fuel. -/
theorem run_fuel {s : Reader} {m n : Nat} (hm : s.rest.text.length < m)
    (hn : s.rest.text.length < n) : s.run m = s.run n := by
  induction m generalizing s n with
  | zero => omega
  | succ m ih =>
    obtain ⟨n, rfl⟩ : ∃ k, n = k + 1 := ⟨n - 1, by omega⟩
    cases henter : s.enter with
    | error f =>
      unfold enter at henter
      rw [run, run, henter]
    | ok p =>
      obtain ⟨margin, s₁⟩ := p
      cases htext : s₁.rest.text with
      | nil =>
        unfold enter at henter
        rw [run, run, henter]
        simp only [htext]
      | cons c cs =>
        cases hread : s₁.readInLine c with
        | error f =>
          unfold enter at henter
          rw [run, run, henter]
          simp only [htext, hread]
        | ok q =>
          have h : Step s (margin ++ q.1) q.2 := ⟨margin, s₁, c, cs, q.1, henter, htext, hread, rfl⟩
          have hs := h.passes.shorter
          have hq : q.2.run m = q.2.run n := ih (by omega) (by omega)
          rw [run_step h, run_step h, hq]

/-- A run of steps gives the tokens that come first. -/
theorem run_reads {s s' : Reader} {ts : List Token} (h : Reads s ts s') {m n : Nat}
    (hm : s.rest.text.length < m) (hn : s'.rest.text.length < n) :
    s.run m = (s'.run n).after ts := by
  induction h generalizing m with
  | done => exact run_fuel hm hn
  | step first _ ih =>
    obtain ⟨m, rfl⟩ : ∃ k, m = k + 1 := ⟨m - 1, by omega⟩
    have hs := first.passes.shorter
    rw [run_step first, ih (by omega) hn, Stream.after_append]

inductive Ends : Reader → List Token → Prop where
  | mk {s s' : Reader} {margin : List Token} (enter : s.enter = .ok (margin, s'))
      (text : s'.rest.text = []) (depth : s'.depth = 0) : Ends s (margin ++ s'.finish.tokens)

theorem run_ends {s : Reader} {ts : List Token} (h : Ends s ts) (n : Nat) :
    s.run (n + 1) = ⟨ts, none⟩ := by
  obtain ⟨henter, htext, hdepth⟩ := h
  unfold enter at henter
  rw [run, henter]
  simp [htext, finish, hdepth]

end Reader
end Pagewright.Syntax
