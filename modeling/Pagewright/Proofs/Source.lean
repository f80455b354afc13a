import Pagewright.Proofs.Grammar.Compound
import Pagewright.Source

namespace Pagewright.Source

open Syntax

variable {path text : Text} {source : Source}

theorem parse_text [CharacterNames] (h : ofText path text = .ok source) :
    parse source.text = .ok source.body := by
  unfold ofText at h
  split at h
  · rename_i body hparse
    obtain rfl := Except.ok.inj h
    exact hparse
  · cases h

/-- A function at the top level has statements, each in its place. -/
theorem definition_placed [CharacterNames] {d : Definition} (h : ofText path text = .ok source)
    (hd : d ∈ source.definitions) :
    d.body ≠ [] ∧ Block.Placed source.text d.span.start d.span.stop d.body := by
  obtain ⟨s, hs, hof⟩ := List.mem_filterMap.mp hd
  have hplaced := (parse_placed (parse_text h)).1.each s hs
  unfold Definition.ofStmt? at hof
  split at hof
  · rename_i span head body
    obtain rfl := Option.some.inj hof
    have hblocks := hplaced.blocks
    obtain ⟨-, -, -, hfilled, -⟩ := hplaced
    simp only [Stmt.blocks, List.flatten_cons, List.flatten_nil, List.append_nil] at hfilled hblocks
    exact ⟨hfilled rfl, hblocks⟩
  · cases hof

end Pagewright.Source
