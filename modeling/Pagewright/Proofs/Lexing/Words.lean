import Pagewright.Proofs.Lexing.Spelling
import Pagewright.Proofs.Text.Ranges

namespace Pagewright.Syntax

open Text Rest

/-- Words as they are written one after the other, with gaps between them. -/
inductive Words : Text → List Token → Prop where
  | one {w : Text} {t : Token} (nonempty : w ≠ []) (written : t.kind.IsWritten w) : Words w [t]
  | more {w gap rest : Text} {t : Token} {ts : List Token} (nonempty : w ≠ [])
    (written : t.kind.IsWritten w) (isGap : IsGap gap) (later : Words rest ts) :
    Words (w ++ gap ++ rest) (t :: ts)

theorem Words.nonempty {w : Text} {ts : List Token} (h : Words w ts) : w ≠ [] := by
  cases h with
  | one nonempty => exact nonempty
  | more nonempty => simp [nonempty]

/-- The first of some words starts their text. -/
theorem Words.first {w : Text} {t : Token} {ts : List Token} (h : Words w (t :: ts)) :
    ∃ w' rest, w = w' ++ rest ∧ t.kind.IsWritten w' := by
  cases h with
  | one nonempty written => exact ⟨w, [], by simp, written⟩
  | more nonempty written isGap later => exact ⟨_, _, List.append_assoc _ _ _, written⟩

/-- The first of some tokens stops where the others go on. -/
theorem Spelled.rest {r : Rest} {t : Token} {ts : List Token} (h : Spelled r (t :: ts)) :
    ∃ r', Reaches r r' ∧ t.stop = r'.offset ∧ Spelled r' ts := by
  cases h with
  | layout _ reaches stop later => exact ⟨_, reaches, stop, later⟩
  | word _ before _ past _ stop _ _ later => exact ⟨_, ⟨_, before.trans past⟩, stop, later⟩

/-- Where the first and the last of some words stand, and what stands between. -/
theorem Spelled.words {r : Rest} {t : Token} {ts later : List Token}
    (h : Spelled r (t :: ts ++ later)) (hwords : ∀ x ∈ t :: ts, x.kind.isLayout = false) :
    ∃ gap r' w r'', IsGap gap ∧ Past r gap r' ∧ Past r' w r'' ∧ Words w (t :: ts) ∧
      t.start = r'.offset ∧ (t :: ts).getLast?.map Token.stop = some r''.offset := by
  induction ts generalizing r t with
  | nil =>
    cases h with
    | layout kind => simp [kind] at hwords
    | word isGap before nonempty past start stop written _ later =>
      exact ⟨_, _, _, _, isGap, before, past, .one nonempty written, start, by simp [stop]⟩
  | cons t' ts ih =>
    cases h with
    | layout kind => simp [kind] at hwords
    | word isGap before nonempty past start stop written _ later =>
      obtain ⟨gap, r₁, w, r₂, hgap, hbefore, hpast, hw, -, hstop⟩ :=
        ih later fun x hx => hwords x (List.mem_cons_of_mem _ hx)
      exact ⟨_, _, _, _, isGap, before, (past.trans hbefore).trans hpast,
        .more nonempty written hgap hw, start, by simpa using hstop⟩

end Pagewright.Syntax
