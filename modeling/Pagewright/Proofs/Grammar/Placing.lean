import Pagewright.Proofs.Grammar.Simple
import Pagewright.Proofs.Lexing.Names
import Pagewright.Proofs.Lexing.Words
import Pagewright.Proofs.Tree.Placed

namespace Pagewright.Syntax

open Text Syntax.Parser

namespace Cursor

/-- A cursor whose tokens are written in the text, behind the last one that was taken. -/
structure At (t : Text) (c : Cursor) : Prop where
  cut : t.IsCut c.stop
  spelled : ∃ r, Rest.Reaches ⟨t, 0⟩ r ∧ c.stop ≤ r.offset ∧ Spelled r c.tokens
  named : AllNamed c.tokens

def Moves (c c' : Cursor) : Prop :=
  ∃ ts, c.Takes ts c'

theorem Moves.refl (c : Cursor) : c.Moves c :=
  ⟨[], .refl c⟩

theorem Moves.trans {c c' c'' : Cursor} (h : c.Moves c') (h' : c'.Moves c'') : c.Moves c'' := by
  obtain ⟨ts, hts⟩ := h
  obtain ⟨ts', hts'⟩ := h'
  exact ⟨ts ++ ts', hts.trans hts'⟩

theorem Takes.moves {c c' : Cursor} {ts : List Token} (h : c.Takes ts c') : c.Moves c' :=
  ⟨ts, h⟩

theorem Reaches.moves {c c' : Cursor} (h : c.Reaches c') : c.Moves c' := by
  obtain ⟨ts, hts, -⟩ := h
  exact hts.moves

theorem Passes.moves {c c' : Cursor} (h : c.Passes c') : c.Moves c' :=
  h.reaches.moves

end Cursor

theorem isCut_of_reaches {t : Text} {r : Rest} (h : Rest.Reaches ⟨t, 0⟩ r) : t.IsCut r.offset := by
  obtain ⟨w, htext, hoffset⟩ := h
  exact ⟨w, r.text, htext, by simpa using hoffset.symm⟩

namespace Cursor

variable {t : Text} {c c' c₁ : Cursor}

/-- Reading starts in the text. -/
theorem at_start (t : Text) : Cursor.At t
    ⟨(Stream.ofText t 0 true).tokens, (Stream.ofText t 0 true).fault, 0, none⟩ := by
  obtain ⟨r, hr, hspelled⟩ := Stream.ofText_spelled t 0 true
  exact ⟨Text.isCut_zero t, ⟨r, hr, Nat.zero_le _, hspelled⟩, Stream.ofText_named t 0 true⟩

/-- A token is taken, and the cursor behind it is in the text as well. -/
theorem At.take {x : Token} {xs : List Token} (h : c.At t) (hx : c.tokens = x :: xs)
    (htokens : c'.tokens = xs) (hstop : c'.stop = x.stop) : c'.At t ∧ c.stop ≤ c'.stop := by
  obtain ⟨r, hr, hle, hspelled⟩ := h.spelled
  rw [hx] at hspelled
  obtain ⟨r', hr', hx', hlater⟩ := hspelled.rest
  have hreaches := hr.trans hr'
  have hoffset := hr'.offset_le
  refine ⟨⟨?_, ⟨r', hreaches, ?_, htokens ▸ hlater⟩, fun y hy => ?_⟩, ?_⟩
  · rw [hstop, hx']
    exact isCut_of_reaches hreaches
  · omega
  · exact h.named y (hx ▸ List.mem_cons_of_mem x (htokens ▸ hy))
  · omega

/-- A cursor in a text is in it again behind the tokens that were taken. -/
theorem At.takes {ts : List Token} (h : c.At t) (hts : c.Takes ts c') :
    c'.At t ∧ c.stop ≤ c'.stop := by
  induction ts generalizing c with
  | nil =>
    obtain ⟨htokens, hstop⟩ := hts
    simp only [List.nil_append, List.getLast?_nil, Option.map_none, Option.getD_none] at *
    obtain ⟨hcut, hspelled, hnamed⟩ := h
    rw [htokens, ← hstop] at hspelled
    exact ⟨⟨hstop ▸ hcut, hspelled, htokens ▸ hnamed⟩, Nat.le_of_eq hstop.symm⟩
  | cons x xs ih =>
    obtain ⟨htokens, hstop⟩ := hts
    have h₁ : Cursor.At t ⟨xs ++ c'.tokens, none, x.stop, none⟩ ∧ c.stop ≤ x.stop :=
      h.take htokens rfl rfl
    have hlast : c'.stop = (xs.getLast?.map Token.stop).getD x.stop := by
      rw [hstop, List.getLast?_cons]
      cases xs.getLast? <;> rfl
    have h₂ := ih h₁.1 ⟨rfl, hlast⟩
    exact ⟨h₂.1, Nat.le_trans h₁.2 h₂.2⟩

theorem At.moves (h : c.At t) (hm : c.Moves c') : c'.At t ∧ c.stop ≤ c'.stop := by
  obtain ⟨ts, hts⟩ := hm
  exact h.takes hts

/-- The words between two cursors stand in the text between the start of the first one and the
stop of the last one. -/
theorem At.words {ts : List Token} (h : c.At t) (hts : c.Takes ts c') (hne : ts ≠ [])
    (hwords : ∀ x ∈ ts, x.kind.isLayout = false) :
    c.stop ≤ c.here ∧ Span.Covers t ⟨c.here, c'.stop⟩ ∧ Words (t.slice c.here c'.stop) ts := by
  obtain ⟨r, hr, hle, hspelled⟩ := h.spelled
  obtain ⟨x, xs, rfl⟩ := List.exists_cons_of_ne_nil hne
  rw [hts.tokens] at hspelled
  obtain ⟨gap, r', w, r'', -, hgap, hpast, hw, hstart, hstop⟩ := hspelled.words hwords
  have hhere : c.here = r'.offset := by simp [here, hts.tokens, hstart]
  have hend : c'.stop = r''.offset := by rw [hts.stop, hstop, Option.getD_some]
  have hr' := hr.trans ⟨gap, hgap⟩
  have hlt := Rest.Passes.offset_lt ⟨w, hw.nonempty, hpast⟩
  have hoffset := Rest.Reaches.offset_le ⟨gap, hgap⟩
  rw [hhere, hend]
  refine ⟨by omega, ⟨isCut_of_reaches hr', isCut_of_reaches (hr'.trans ⟨w, hpast⟩), hlt⟩, ?_⟩
  obtain ⟨v, htext, hsize⟩ := hr'
  rw [hpast.text] at htext
  change t = _ at htext
  rw [hpast.offset, hsize, Nat.zero_add, htext, ← List.append_assoc, slice_size]
  exact hw

theorem At.passes (h : c.At t) (hp : c.Passes c') :
    c.stop ≤ c.here ∧ Span.Covers t ⟨c.here, c'.stop⟩ := by
  obtain ⟨ts, hts, hne, hwords⟩ := hp
  have hin := h.words hts hne hwords
  exact ⟨hin.1, hin.2.1⟩

/-- A span between two cursors stands between them in the text. -/
theorem At.covers {s : Span} (h : c.At t) (hs : c.Covers c' s) :
    s.Covers t ∧ c.stop ≤ s.start ∧ s.stop ≤ c'.stop := by
  obtain ⟨c₁, c₂, h₁, h₂, h₃, rfl⟩ := hs
  have hat₁ := h.moves h₁.moves
  have hat₂ := hat₁.1.moves h₂.moves
  have hat₃ := hat₂.1.moves h₃.moves
  have hin := hat₁.1.passes h₂
  exact ⟨hin.2, Nat.le_trans hat₁.2 hin.1, hat₃.2⟩

end Cursor

/-- The whole numbers and signs of an expression as they are written in the text. -/
def Expr.Written (t : Text) (e : Expr) : Prop :=
  ∀ x ∈ e.parts, ∃ ts, Shape ts x ∧ Words (t.slice x.span.start x.span.stop) ts

theorem Told.written {t : Text} {c c' : Cursor} {e : Expr} (h : Told c c' e) (hat : c.At t) :
    e.Written t := by
  intro x hx
  obtain ⟨c₁, ts, c₂, h₁, hts, ⟨ts', hts', hne, hwords⟩, -, hspan, hshape⟩ := h.parts x hx
  obtain rfl : ts = ts' := List.append_cancel_right (hts.tokens.symm.trans hts'.tokens)
  have hin := (hat.moves h₁.moves).1.words hts hne hwords
  rw [hspan]
  exact ⟨ts, hshape, hin.2.2⟩

/-- How a statement is written in the text, if it is a value alone or a `from` import. -/
def Stmt.Written (t : Text) : Stmt → Prop
  | .expr _ e => e.Written t
  | .importFrom span _ level _ =>
    ∃ ts, OpensImport level ts ∧ AllNamed ts ∧ Words (t.slice span.start span.stop) ts
  | _ => True

/-- Statements that lie in the text between two cursors, one after the other. -/
structure Laid (t : Text) (c c' : Cursor) (ss : List Stmt) : Prop where
  moves : c.Moves c'
  placed : c.At t → Block.Placed t c.stop c'.stop ss
  written : c.At t → ∀ s ∈ ss, s.Written t

variable {t : Text} {c c' c₁ c₂ : Cursor}

theorem laid_nil (h : c.Moves c') : Laid t c c' [] :=
  ⟨h, fun hat => ⟨(hat.moves h).2, by simp⟩, by simp⟩

theorem Laid.append {ss ss' : List Stmt} (h : Laid t c c₁ ss) (h' : Laid t c₁ c' ss') :
    Laid t c c' (ss ++ ss') := by
  refine ⟨h.moves.trans h'.moves, fun hat => ?_, fun hat s hs => ?_⟩
  · have h₁ := h.placed hat
    have h₂ := h'.placed (hat.moves h.moves).1
    refine ⟨by simpa using h₁.order.append h₂.order, fun s hs => ?_⟩
    exact (List.mem_append.mp hs).elim (h₁.each s) (h₂.each s)
  · rcases List.mem_append.mp hs with hs | hs
    · exact h.written hat s hs
    · exact h'.written (hat.moves h.moves).1 s hs

theorem Laid.before {ss : List Stmt} (hm : c.Moves c₁) (h : Laid t c₁ c' ss) : Laid t c c' ss :=
  (laid_nil hm).append h

theorem Laid.after {ss : List Stmt} (h : Laid t c c₁ ss) (hm : c₁.Moves c') : Laid t c c' ss := by
  simpa using h.append (laid_nil hm)

/-- A statement that covers its words is written as the text of its span. -/
theorem ToldStmt.written {s : Stmt} (h : ToldStmt c c' s) (hat : c.At t) : s.Written t := by
  cases s with
  | expr span e => exact (h.alone span e rfl).written hat
  | importFrom span module level names =>
    obtain ⟨ts, hts, hopens⟩ := h.imports span module level names rfl
    obtain ⟨ts', hts', hne, hwords⟩ := h.passes
    obtain rfl : ts = ts' := List.append_cancel_right (hts.tokens.symm.trans hts'.tokens)
    have hspan : span = ⟨c.here, c'.stop⟩ := h.span
    rw [Stmt.Written, hspan]
    refine ⟨ts, hopens, fun x hx => hat.named x ?_, (hat.words hts hne hwords).2.2⟩
    rw [hts.tokens]
    exact List.mem_append_left _ hx
  | _ => trivial

/-- A statement that covers its words is a list of one in their place. -/
theorem ToldStmt.laid {s : Stmt} (h : ToldStmt c c' s) : Laid t c c' [s] := by
  refine ⟨h.passes.moves, fun hat => ?_, fun hat x hx => ?_⟩
  · obtain ⟨hle, hcovers⟩ := hat.passes h.passes
    rw [← h.span] at hcovers
    have hstart : s.span.start = c.here := by rw [h.span]
    have hstop : s.span.stop = c'.stop := by rw [h.span]
    refine ⟨⟨hstart ▸ hle, hcovers.lt, Nat.le_of_eq hstop⟩, fun x hx => ?_⟩
    obtain rfl := List.mem_singleton.mp hx
    refine .mk hcovers (fun span v hs => ?_) ?_ (fun hs => ?_) (by simp [h.blocks])
    · subst hs
      obtain ⟨c₁, h₁, hv⟩ := h.value span v rfl
      have h₂ := (hat.passes h₁)
      have h₃ := (hat.moves h₁.moves).1.covers hv.span
      refine ⟨h₃.1, ?_, ?_⟩
      · have hlt := h₂.2.lt
        change span.start = c.here at hstart
        simp only at hlt
        omega
      · change span.stop = c'.stop at hstop
        omega
    · rw [h.blocks]
      exact Nat.le_of_lt hcovers.lt
    · have hblocks := h.blocks
      cases x with
      | function | classDef => cases hblocks
      | _ => cases hs
  · obtain rfl := List.mem_singleton.mp hx
    exact h.written hat

open Statement

theorem lastStop_append (start : Nat) (ss ss' : List Stmt) :
    lastStop (lastStop start ss) ss' = lastStop start (ss ++ ss') := by
  unfold lastStop
  rw [List.getLast?_append]
  cases ss'.getLast? with
  | none => rfl
  | some s => rfl

theorem lastStop_eq {start start' : Nat} {ss : List Stmt} (h : ss ≠ []) :
    lastStop start ss = lastStop start' ss := by
  unfold lastStop
  rw [List.getLast?_eq_some_getLast h]
  rfl

/-- Behind the words that start a statement its blocks follow, up to the last one of them. -/
theorem laid_compound {s : Stmt} (h : c.Passes c₁)
    (hspan : s.span = ⟨c.here, lastStop c.here s.blocks.flatten⟩) (hne : s.blocks.flatten ≠ [])
    (hblocks : Laid t c₁ c' s.blocks.flatten) : Laid t c c' [s] := by
  have hsimple : s.blocks ≠ [] := fun hnil => hne (by rw [hnil]; rfl)
  refine ⟨h.moves.trans hblocks.moves, fun hat => ?_, fun hat x hx => ?_⟩
  · obtain ⟨hle, hword⟩ := hat.passes h
    obtain ⟨horder, heach⟩ := hblocks.placed (hat.moves h.moves).1
    have hlast := List.getLast?_eq_some_getLast hne
    have hspans : (s.blocks.flatten.map Stmt.span).getLast? =
        some (s.blocks.flatten.getLast hne).span := by
      rw [List.getLast?_map, hlast]
      rfl
    have hmem := List.getLast_mem hne
    have hin := horder.mem (List.mem_map_of_mem hmem)
    have hlt := hword.lt
    have hstart : s.span.start = c.here := by rw [hspan]
    have hstop : s.span.stop = (s.blocks.flatten.getLast hne).span.stop := by
      rw [hspan, lastStop, hlast]
      rfl
    have hbefore : s.span.start ≤ c₁.stop := by
      rw [hstart]
      exact Nat.le_of_lt hlt
    have hafter : s.span.stop ≤ c'.stop := hstop ▸ hin.2.2
    have hcovers : s.span.Covers t :=
      ⟨hstart ▸ hword.start, hstop ▸ (heach _ hmem).covers.stop, by omega⟩
    refine ⟨⟨hstart ▸ hle, hcovers.lt, hafter⟩, fun x hx => ?_⟩
    obtain rfl := List.mem_singleton.mp hx
    refine .mk hcovers ?_ ?_ (fun _ => hne)
      fun b hb y hy => heach y (List.mem_flatten.mpr ⟨b, hb, hy⟩)
    · rintro span v rfl
      exact absurd rfl hsimple
    · rw [hstop]
      exact (horder.upTo hspans).mono hbefore (Nat.le_refl _)
  · obtain rfl := List.mem_singleton.mp hx
    cases x with
    | expr | importFrom => exact absurd rfl hsimple
    | _ => trivial

end Pagewright.Syntax
