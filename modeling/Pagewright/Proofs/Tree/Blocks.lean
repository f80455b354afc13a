import Pagewright.Syntax.Tree

namespace Pagewright.Syntax.Stmt

def blocks : Stmt → List (List Stmt)
  | .function _ _ body => [body]
  | .classDef _ _ _ _ _ _ body => [body]
  | .forLoop _ _ _ _ body orelse => [body, orelse]
  | .whileLoop _ _ body orelse => [body, orelse]
  | .branch _ _ body orelse => [body, orelse]
  | .withBlock _ _ _ body => [body]
  | .matchOn _ _ cases => cases.map (·.body)
  | .tryBlock _ _ body handlers orelse finale =>
    body :: handlers.map (·.body) ++ [orelse, finale]
  | _ => []

/-- Whether a statement is a scope of its own: the returns in its block are not those of the
function around it. -/
def isScope : Stmt → Bool
  | .function .. | .classDef .. => true
  | _ => false

/-- A body has the blocks of its statements, those of the statements in them and so on, and it
has itself as a block. -/
inductive HasBlock : List Stmt → List Stmt → Prop where
  | self {b : List Stmt} : HasBlock b b
  | inner {b c d : List Stmt} {s : Stmt} (mem : s ∈ b) (block : c ∈ s.blocks)
    (deeper : HasBlock c d) : HasBlock b d

/-- The statements of a block are smaller than the one it belongs to, so that induction over blocks
ends. -/
theorem sizeOf_lt_of_mem_blocks {s x : Stmt} {b : List Stmt} (hb : b ∈ s.blocks) (hx : x ∈ b) :
    sizeOf x < sizeOf s := by
  have hlt : sizeOf x < sizeOf b := List.sizeOf_lt_of_mem hx
  cases s with
  | matchOn span subject cases =>
    obtain ⟨c, hc, rfl⟩ := List.mem_map.mp hb
    have hcases := List.sizeOf_lt_of_mem hc
    obtain ⟨pattern, guard, body⟩ := c
    simp only [MatchCase.mk.sizeOf_spec, matchOn.sizeOf_spec] at *
    omega
  | tryBlock span grouped body handlers orelse finale =>
    simp only [blocks, List.cons_append, List.mem_cons, List.mem_append, List.mem_map,
      List.not_mem_nil, or_false] at hb
    rcases hb with rfl | ⟨h, hh, rfl⟩ | rfl | rfl
    · simp only [tryBlock.sizeOf_spec]
      omega
    · have hhandlers := List.sizeOf_lt_of_mem hh
      obtain ⟨span', type, name, inner⟩ := h
      simp only [Handler.mk.sizeOf_spec, tryBlock.sizeOf_spec] at *
      omega
    · simp only [tryBlock.sizeOf_spec]
      omega
    · simp only [tryBlock.sizeOf_spec]
      omega
  | _ =>
    simp only [blocks, List.mem_cons, List.not_mem_nil, or_false] at hb
    try rcases hb with rfl | rfl
    all_goals simp +arith at *
    all_goals omega

/-- What holds of a statement as soon as it holds in all of its blocks holds of every
statement. -/
theorem inBlocks_induction {P : Stmt → Prop}
    (step : ∀ s : Stmt, (∀ b ∈ s.blocks, ∀ x ∈ b, P x) → P s) (s : Stmt) : P s :=
  step s fun _ hb x hx =>
    have := sizeOf_lt_of_mem_blocks hb hx
    inBlocks_induction step x
termination_by sizeOf s

end Pagewright.Syntax.Stmt
