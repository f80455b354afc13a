import Pagewright.Syntax.Statement
import Pagewright.Proofs.Grammar.Primaries
import Pagewright.Proofs.Lexing.Softening

namespace Pagewright.Syntax

open Text Rest

def startsLine (c : Char) : Bool :=
  c ≠ '\n' && c ≠ '\r' && c ≠ ' ' && c ≠ '\t' && c ≠ '#' && c ≠ Char.ofNat 12 && c ≠ '\uFEFF'

theorem startsLine_of_isStart {c : Char} (h : Identifier.isStart c = true) :
    startsLine c = true := by
  simp only [startsLine, Bool.and_eq_true, decide_eq_true_eq]
  refine ⟨⟨⟨⟨⟨⟨?_, ?_⟩, ?_⟩, ?_⟩, ?_⟩, ?_⟩, ?_⟩ <;>
    (rintro rfl; exact absurd h (by decide +kernel))

/-- A lexeme that is no blank starts with a character that can start a line. -/
theorem Lexeme.text_starts {l : Lexeme} {depth : Nat} (hs : l.IsSound depth) (hl : l ≠ .space) :
    ∃ c cs, l.text = c :: cs ∧ startsLine c = true := by
  cases l with
  | word id =>
    obtain ⟨c, cs, rfl, hc, -⟩ := hs
    exact ⟨c, cs, rfl, startsLine_of_isStart hc⟩
  | symbol o =>
    have h : o.text.head?.any startsLine = true := by cases o <;> decide
    cases ht : o.text with
    | nil => exact absurd ht o.text_narrow.1
    | cons c cs =>
      rw [ht] at h
      exact ⟨c, cs, ht, by simpa using h⟩
  | quoted quote content =>
    refine ⟨quote, content ++ [quote], rfl, ?_⟩
    rcases isQuote_eq hs.1 with rfl | rfl <;> decide
  | space => exact absurd rfl hl

namespace Reader

theorem enterLine_unindented {c : Char} {cs : Text} {depth offset : Nat}
    (hc : startsLine c = true) :
    enterLine ⟨⟨c :: cs, offset⟩, depth, true, []⟩ = .ok ([], inLine depth [] (c :: cs) offset) := by
  simp only [startsLine, Bool.and_eq_true, decide_eq_true_eq] at hc
  obtain ⟨⟨⟨⟨⟨⟨h1, h2⟩, h3⟩, h4⟩, h5⟩, h6⟩, -⟩ := hc
  have hm : readMargin (c :: cs) offset ⟨0, 0⟩ false = .ok ⟨⟨0, 0⟩, c :: cs, offset⟩ := by
    simp [readMargin, h1, h2, h3, h4, h5, h6]
  unfold enterLine
  simp only [hm]
  rfl

/-- What is read inside a line in the first column is read from the start of that line. -/
theorem reads_unindented {c : Char} {cs : Text} {depth offset : Nat} {ts : List Token}
    {s' : Reader} (hc : startsLine c = true)
    (h : Reads (inLine depth [] (c :: cs) offset) ts s') (hne : s'.rest.text ≠ c :: cs) :
    Reads ⟨⟨c :: cs, offset⟩, depth, true, []⟩ ts s' := by
  cases h with
  | done => exact absurd rfl hne
  | step first run =>
    obtain ⟨margin, inside, d, ds, found, henter, htext, hread, rfl⟩ := first
    obtain ⟨rfl, rfl⟩ := Prod.mk.inj (Except.ok.inj henter)
    refine .step ⟨[], _, d, ds, found, ?_, htext, hread, rfl⟩ run
    exact enterLine_unindented hc

theorem start_eq {c : Char} {cs : Text} {offset : Nat} (hc : startsLine c = true) :
    start (c :: cs) offset = ⟨⟨c :: cs, offset⟩, 0, true, []⟩ := by
  have hb : c ≠ '\uFEFF' := by
    simp only [startsLine, Bool.and_eq_true, decide_eq_true_eq] at hc
    exact hc.2
  unfold start
  split
  · rename_i heq
    exact absurd (List.cons.inj heq).1 hb
  · rfl

end Reader

/-- The tokens of lexemes that fit on one line. -/
theorem ofText_lexemes {l : Lexeme} {ls : List Lexeme} (hf : Lexeme.Fit 0 (l :: ls) [])
    (hd : Reader.depthAfter 0 (l :: ls) = 0) (hl : l ≠ .space) :
    ∃ ts, Stream.ofText ((l :: ls).flatMap Lexeme.text) 0 true = ⟨ts, none⟩ ∧
      ts.map Token.kind = softened true ((l :: ls).flatMap Lexeme.kinds ++ [.newline]) := by
  obtain ⟨ts, hr, hts⟩ := Reader.spells_lexemes 0 [] hf
  obtain ⟨c, cs, htext, hc⟩ := Lexeme.text_starts hf.1 hl
  obtain ⟨cs, hall⟩ : ∃ cs, (l :: ls).flatMap Lexeme.text = c :: cs :=
    ⟨cs ++ ls.flatMap Lexeme.text, by rw [List.flatMap_cons, htext, List.cons_append]⟩
  rw [List.append_nil, hall] at hr
  rw [hd] at hr
  have hrun := Reader.run_reads (Reader.reads_unindented hc hr (by simp))
    (m := (c :: cs).length + 2) (n := 1) (by simp) (by simp)
  have hends : Reader.Ends (Reader.inLine 0 [] [] (0 + size (c :: cs)))
      ([] ++ (Reader.inLine 0 [] [] (0 + size (c :: cs))).finish.tokens) := .mk rfl rfl rfl
  rw [Reader.run_ends hends 0] at hrun
  have hstream : Stream.ofText (c :: cs) 0 true =
      ⟨soften true (ts ++ (Reader.inLine 0 [] [] (0 + size (c :: cs))).finish.tokens), none⟩ := by
    rw [Stream.ofText, Reader.start_eq hc, hrun]
    rfl
  refine ⟨_, by rw [hall, hstream], ?_⟩
  rw [soften_kinds, List.map_append, hts]
  rfl

namespace Statement

open Syntax.Parser Expression

variable {n : Nat} {P : Expr → Prop} {ks : List TokenKind} {t : TokenKind}

/-- A line that holds one expression is a statement of that expression. -/
theorem valueStatement_of_test [CharacterNames] (ht : opensAtom t = true)
    (h : Gives (Expression.test (Grammar.level n)) (t :: ks) P [.newline]) :
    Gives (valueStatement (Grammar.level (n + 1))) (t :: ks)
      (fun s => ∃ span e, s = .expr span e ∧ P e) [.newline] := by
  have hitem : Gives (testOrStar (Grammar.level (n + 1))) (t :: ks) P [.newline] := by
    refine gives_isNext.bind fun b hb => ?_
    rw [hb, decide_eq_false (opensAtom_ne ht rfl)]
    exact h
  refine gives_here.bind fun start _ => ?_
  refine (gives_items_one hitem (by decide)).bind fun r hr => ?_
  obtain ⟨e, rfl, he⟩ := hr
  have htarget : Gives (pure e) [.newline] (· = e) [.newline] := gives_pure rfl
  refine htarget.bind fun target htarget => ?_
  refine gives_kind.bind fun k hk => ?_
  rw [hk]
  refine gives_isNext.bind fun b hb => ?_
  rw [hb]
  simp only [show decide (TokenKind.newline = .operator .colon) = false from rfl, Bool.and_false,
    Bool.false_eq_true, if_false]
  refine (gives_manyWhile_nil (gives_accept_not (by decide))).bind fun vs hvs => ?_
  rw [hvs]
  exact gives_spanFrom.bind fun span _ => gives_pure ⟨span, e, by rw [htarget], he⟩

/-- One target and one value. -/
theorem valueStatement_of_assign [CharacterNames] {Q : Expr → Prop} {u : TokenKind}
    {rest : List TokenKind} (ht : opensAtom t = true)
    (h : Gives (Expression.test (Grammar.level n)) (t :: ks) P (.operator .equal :: u :: rest))
    (hu : u ≠ .keyword .yieldWord) (hstar : u ≠ .operator .star)
    (hvalue : Gives (Expression.test (Grammar.level n)) (u :: rest) Q [.newline]) :
    Gives (valueStatement (Grammar.level (n + 1))) (t :: ks)
      (fun s => ∃ span x y, s = .assign span [x] y ∧ P x ∧ Q y) [.newline] := by
  have hitem : Gives (testOrStar (Grammar.level (n + 1))) (t :: ks) P
      (.operator .equal :: u :: rest) := by
    refine gives_isNext.bind fun b hb => ?_
    rw [hb, decide_eq_false (opensAtom_ne ht rfl)]
    exact h
  have hassigned : Gives (assigned (Grammar.level (n + 1))) (u :: rest) Q [.newline] := by
    refine gives_isNext.bind fun b hb => ?_
    rw [hb, decide_eq_false hu]
    have hlater : Gives (testOrStar (Grammar.level (n + 1))) (u :: rest) Q [.newline] := by
      refine gives_isNext.bind fun b hb => ?_
      rw [hb, decide_eq_false hstar]
      exact hvalue
    refine gives_here.bind fun _ _ => (gives_items_one hlater (by decide)).bind fun r hr => ?_
    obtain ⟨y, rfl, hy⟩ := hr
    exact gives_pure hy
  have hvalues : Gives (manyWhile (acceptSymbol .equal) (assigned (Grammar.level (n + 1))) (n + 1))
      (.operator .equal :: u :: rest) (fun ys => ∃ y, ys = [y] ∧ Q y) [.newline] := by
    refine gives_accept.bind fun b hb => ?_
    rw [hb]
    refine hassigned.bind fun y hy =>
      (gives_manyWhile_nil (gives_accept_not (by decide))).bind fun ys hys => ?_
    rw [hys]
    exact gives_pure ⟨y, rfl, hy⟩
  refine gives_here.bind fun start _ => ?_
  refine (gives_items_one hitem (by simp)).bind fun r hr => ?_
  obtain ⟨x, rfl, hx⟩ := hr
  have htarget : Gives (pure x) (.operator .equal :: u :: rest) (· = x)
      (.operator .equal :: u :: rest) := gives_pure rfl
  refine htarget.bind fun target htarget => gives_kind.bind fun k hk => ?_
  rw [hk]
  refine gives_isNext.bind fun b hb => ?_
  rw [hb]
  simp only [show decide (TokenKind.operator .equal = .operator .colon) = false from rfl,
    Bool.and_false, Bool.false_eq_true, if_false]
  refine hvalues.bind fun ys hys => ?_
  obtain ⟨y, rfl, hy⟩ := hys
  exact gives_spanFrom.bind fun span _ => gives_pure ⟨span, x, y, by rw [htarget]; rfl, hx, hy⟩

/-- A line of one statement that starts with a value. -/
theorem statement_of_value [CharacterNames] (block : Block) {Q : Stmt → Prop}
    (ht : opensAtom t = true)
    (h : Gives (valueStatement (Grammar.level (n + 1))) (t :: ks) Q [.newline]) :
    Gives (statement (Grammar.level (n + 1)) block) (t :: ks) (fun ss => ∃ s, ss = [s] ∧ Q s) [] := by
  have hsimple : Gives (simple (Grammar.level (n + 1))) (t :: ks) Q [.newline] := by
    refine gives_here.bind fun start _ => gives_kind.bind fun k hk => ?_
    rw [hk]
    cases t with
    | keyword w => cases w <;> first | exact h | simp [opensAtom] at ht
    | _ => exact h
  have hline : Gives (line (Grammar.level (n + 1)) (n + 1)) (t :: ks)
      (fun ss => ∃ s, ss = [s] ∧ Q s) [] := by
    refine hsimple.bind fun s hs => (gives_accept_not (by decide)).bind fun b hb => ?_
    rw [hb]
    exact gives_expect.bind fun _ _ => gives_pure ⟨s, rfl, hs⟩
  refine gives_here.bind fun start _ => gives_kind.bind fun k hk => ?_
  rw [hk]
  cases t with
  | keyword w => cases w <;> first | exact hline | simp [opensAtom] at ht
  | operator o => cases o <;> first | exact hline | simp [opensAtom] at ht
  | _ => exact hline

theorem module_of_statement (fuel : Nat) {g : Grammar} {c c' c'' : Cursor} {found later : List Stmt}
    (hk : kind? c = .ok (some t, c)) (ht : t ≠ .newline)
    (hs : statement g (block g g.fuel) c = .ok (found, c'))
    (hm : module g fuel c' = .ok (later, c'')) :
    module g (fuel + 1) c = .ok (found ++ later, c'') := by
  unfold module
  simp only [bind, StateT.bind, Except.bind, hk]
  cases t with
  | newline => exact absurd rfl ht
  | _ =>
    simp only [hs, hm]
    rfl

/-- A text of one line is read as the one statement that a rule gives. -/
theorem parse_of_value [CharacterNames] {text : Text} {ts : List Token} {Q : Stmt → Prop}
    (hstream : Stream.ofText text 0 true = ⟨ts, none⟩) (hts : ts.map Token.kind = t :: ks)
    (ht : opensAtom t = true)
    (h : Gives (valueStatement (Grammar.level (2 * text.length + 8))) (t :: ks) Q [.newline]) :
    ∃ s, parse text = .ok [s] ∧ Q s := by
  obtain ⟨t', ts', rfl, ht', -⟩ := List.map_eq_cons_iff.mp hts
  obtain ⟨ss, ts'', stop, hstmt, hrest, s, rfl, hs⟩ := statement_of_value
    (block (Grammar.level (2 * text.length + 8)) (2 * text.length + 8)) ht h _ none 0 hts
  obtain rfl : ts'' = [] := List.map_eq_nil_iff.mp hrest
  refine ⟨s, ?_, hs⟩
  have hkind : kind? ⟨t' :: ts', none, 0, none⟩ = .ok (some t, ⟨t' :: ts', none, 0, none⟩) := by
    rw [← ht']
    rfl
  have hmodule := module_of_statement (2 * text.length + 7) hkind
    (by rintro rfl; simp [opensAtom] at ht) hstmt rfl
  unfold parse
  simp only [hstream, show (Grammar.level (2 * text.length + 8)).fuel = 2 * text.length + 7 + 1 from rfl]
  rw [hmodule]
  rfl

/-- A text of lexemes that fit on one line is read as the one expression that a rule gives. -/
theorem parse_lexemes [CharacterNames] {l : Lexeme} {ls : List Lexeme}
    (hf : Lexeme.Fit 0 (l :: ls) []) (hd : Reader.depthAfter 0 (l :: ls) = 0) (hl : l ≠ .space)
    (hk : softened true ((l :: ls).flatMap Lexeme.kinds ++ [.newline]) = t :: ks)
    (ht : opensAtom t = true)
    (h : ∀ n, Gives (Expression.test (Grammar.level (n + 7))) (t :: ks) P [.newline]) :
    ∃ span e, parse ((l :: ls).flatMap Lexeme.text) = .ok [.expr span e] ∧ P e := by
  obtain ⟨ts, hstream, hts⟩ := ofText_lexemes hf hd hl
  obtain ⟨s, hparse, span, e, rfl, he⟩ := parse_of_value hstream (hts.trans hk) ht
    (valueStatement_of_test ht (h _))
  exact ⟨span, e, hparse, he⟩

end Statement
end Pagewright.Syntax
