import Pagewright.Proofs.Text.Ranges
import Pagewright.Proofs.Tree.Blocks

namespace Pagewright.Syntax

open Text

/-- The span is that of a part of the text, which is not empty. -/
structure Span.Covers (t : Text) (s : Span) : Prop where
  start : t.IsCut s.start
  stop : t.IsCut s.stop
  lt : s.start < s.stop

theorem Span.Covers.hasRange {t : Text} {s : Span} (h : s.Covers t) :
    t.HasRange s.start s.stop :=
  hasRange_of_isCut h.start h.stop (Nat.le_of_lt h.lt)

def Span.Inside (inner outer : Span) : Prop :=
  outer.start ≤ inner.start ∧ inner.stop ≤ outer.stop

/-- Spans one after the other between two offsets. -/
def InOrder : Nat → Nat → List Span → Prop
  | lo, hi, [] => lo ≤ hi
  | lo, hi, s :: ss => lo ≤ s.start ∧ s.start < s.stop ∧ InOrder s.stop hi ss

theorem InOrder.le {lo hi : Nat} {ss : List Span} (h : InOrder lo hi ss) : lo ≤ hi := by
  induction ss generalizing lo with
  | nil => exact h
  | cons s ss ih =>
    obtain ⟨hlo, hlt, hss⟩ := h
    have := ih hss
    omega

theorem InOrder.mono {lo lo' hi hi' : Nat} {ss : List Span} (h : InOrder lo hi ss)
    (hlo : lo' ≤ lo) (hhi : hi ≤ hi') : InOrder lo' hi' ss := by
  induction ss generalizing lo lo' with
  | nil => exact Nat.le_trans hlo (Nat.le_trans h hhi)
  | cons s ss ih =>
    obtain ⟨hs, hlt, hss⟩ := h
    exact ⟨Nat.le_trans hlo hs, hlt, ih hss (Nat.le_refl _)⟩

theorem InOrder.append {lo mid hi : Nat} {ss ss' : List Span} (h : InOrder lo mid ss)
    (h' : InOrder mid hi ss') : InOrder lo hi (ss ++ ss') := by
  induction ss generalizing lo with
  | nil => exact h'.mono h (Nat.le_refl _)
  | cons s ss ih => exact ⟨h.1, h.2.1, ih h.2.2⟩

theorem InOrder.mem {lo hi : Nat} {ss : List Span} {s : Span} (h : InOrder lo hi ss)
    (hs : s ∈ ss) : lo ≤ s.start ∧ s.start < s.stop ∧ s.stop ≤ hi := by
  induction ss generalizing lo with
  | nil => cases hs
  | cons x xs ih =>
    obtain ⟨hlo, hlt, hxs⟩ := h
    rcases List.mem_cons.mp hs with rfl | hs
    · exact ⟨hlo, hlt, hxs.le⟩
    · have hin := ih hxs hs
      omega

/-- Spans in order lie between the start of the first and the stop of the last one. -/
theorem InOrder.tight {lo hi : Nat} {ss : List Span} {first last : Span} (h : InOrder lo hi ss)
    (hfirst : ss.head? = some first) (hlast : ss.getLast? = some last) :
    InOrder first.start last.stop ss := by
  induction ss generalizing lo first with
  | nil => cases hfirst
  | cons s ss ih =>
    obtain ⟨-, hlt, hss⟩ := h
    obtain rfl := Option.some.inj hfirst
    refine ⟨Nat.le_refl _, hlt, ?_⟩
    cases ss with
    | nil =>
      obtain rfl := Option.some.inj hlast
      exact Nat.le_refl _
    | cons x xs =>
      have hxs := ih hss rfl (by simpa using hlast)
      exact hxs.mono hss.1 (Nat.le_refl _)

/-- Spans in order go no farther than the last one. -/
theorem InOrder.upTo {lo hi : Nat} {ss : List Span} {last : Span} (h : InOrder lo hi ss)
    (hlast : ss.getLast? = some last) : InOrder lo last.stop ss := by
  cases ss with
  | nil => cases hlast
  | cons s ss => exact (h.tight rfl hlast).mono h.1 (Nat.le_refl _)

theorem InOrder.sublist {lo hi : Nat} {ss ss' : List Span} (h : InOrder lo hi ss)
    (hsub : ss'.Sublist ss) : InOrder lo hi ss' := by
  induction hsub generalizing lo with
  | slnil => exact h
  | cons s _ ih => exact (ih h.2.2).mono (Nat.le_trans h.1 (Nat.le_of_lt h.2.1)) (Nat.le_refl _)
  | cons_cons s _ ih => exact ⟨h.1, h.2.1, ih h.2.2⟩

/-- In order, a span ends before any later one starts. -/
theorem InOrder.pairwise {lo hi : Nat} {ss : List Span} (h : InOrder lo hi ss) :
    ss.Pairwise fun a b => a.stop ≤ b.start := by
  induction ss generalizing lo with
  | nil => exact .nil
  | cons s ss ih => exact .cons (fun x hx => (h.2.2.mem hx).1) (ih h.2.2)

namespace Stmt

/-- A statement that lies in the text as a reader puts it. -/
inductive Placed (t : Text) : Stmt → Prop where
  | mk {s : Stmt} (covers : s.span.Covers t)
      (value : ∀ span v, s = .return span (some v) → v.span.Covers t ∧ v.span.Inside span)
      (order : InOrder s.span.start s.span.stop (s.blocks.flatten.map span))
      (filled : s.isScope = true → s.blocks.flatten ≠ [])
      (inner : ∀ b ∈ s.blocks, ∀ x ∈ b, Placed t x) : Placed t s

end Stmt

/-- The statements of a block, one after the other between two offsets, each in its place. -/
structure Block.Placed (t : Text) (lo hi : Nat) (b : List Stmt) : Prop where
  order : InOrder lo hi (b.map Stmt.span)
  each : ∀ s ∈ b, s.Placed t

theorem Stmt.Placed.covers {t : Text} {s : Stmt} (h : s.Placed t) : s.span.Covers t := by
  cases h with
  | mk covers => exact covers

theorem Stmt.Placed.blocks {t : Text} {s : Stmt} (h : s.Placed t) :
    Block.Placed t s.span.start s.span.stop s.blocks.flatten := by
  obtain ⟨-, -, horder, -, hinner⟩ := h
  constructor
  · exact horder
  · intro x hx
    obtain ⟨b, hb, hx⟩ := List.mem_flatten.mp hx
    exact hinner b hb x hx

/-- The blocks of statements in their places are in their places too, at any depth. -/
theorem Block.Placed.block {t : Text} {lo hi : Nat} {b b' : List Stmt} (h : Block.Placed t lo hi b)
    (hb : Stmt.HasBlock b b') : ∃ lo' hi', Block.Placed t lo' hi' b' := by
  induction hb generalizing lo hi with
  | self => exact ⟨lo, hi, h⟩
  | @inner b c d s mem block deeper ih =>
    have hblocks := (h.each s mem).blocks
    have hc : Block.Placed t s.span.start s.span.stop c := by
      refine ⟨hblocks.order.sublist ?_, fun x hx => hblocks.each x ?_⟩
      · exact (List.sublist_flatten_of_mem block).map Stmt.span
      · exact List.mem_flatten.mpr ⟨c, block, hx⟩
    exact ih hc

end Pagewright.Syntax
