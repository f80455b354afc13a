import Mathlib.Data.Option.Basic
import Pagewright.Proofs.Json.Quoting

namespace Pagewright.Json

variable {g g' k t rest rest' : Text} {v : Json} {es : List (Text × Json)} {n : Nat}

def IsGap (t : Text) : Prop :=
  ∀ c ∈ t, c = ' ' ∨ c = '\n' ∨ c = '\r' ∨ c = '\t'

theorem skipBlanks_gap (h : IsGap g) (t : Text) : skipBlanks (g ++ t) = skipBlanks t := by
  apply List.dropWhile_append_of_pos
  intro c hc
  rcases h c hc with rfl | rfl | rfl | rfl <;> rfl

theorem readValue_gap (h : IsGap g) (n : Nat) (t : Text) :
    readValue n (g ++ t) = readValue n t := by
  cases n with
  | zero => rfl
  | succ n => rw [readValue, readValue, skipBlanks_gap h]

theorem readEntries_gap (h : IsGap g) (n : Nat) (t : Text) :
    readEntries n (g ++ t) = readEntries n t := by
  cases n with
  | zero => rfl
  | succ n => rw [readEntries, readEntries, skipBlanks_gap h]

theorem quote_append (t rest : Text) :
    quote t ++ rest = '"' :: (t.flatMap escapeChar ++ '"' :: rest) := by
  simp [quote]

/-- Behind the opening quote the reader never runs out of steps before the closing one. -/
theorem readString_enough (t rest : Text) :
    readString ((t.flatMap escapeChar ++ '"' :: rest).length + 1)
      (t.flatMap escapeChar ++ '"' :: rest) = some (t, rest) := by
  apply readString_quoted
  have hlength := length_le_escaped t
  rw [List.length_append]
  omega

theorem readValue_quote (n : Nat) (t rest : Text) :
    readValue (n + 1) (quote t ++ rest) = some (.string t, rest) := by
  have hread := readString_enough t rest
  rw [quote_append]
  generalize t.flatMap escapeChar ++ '"' :: rest = u at hread ⊢
  have hskip : skipBlanks ('"' :: u) = '"' :: u := rfl
  rw [readValue, hskip]
  simp only [if_neg (show '"' ≠ '{' by decide), if_neg (show '"' ≠ '[' by decide), if_pos, hread]
  rfl

theorem readValue_true (n : Nat) (rest : Text) :
    readValue (n + 1) ('t' :: 'r' :: 'u' :: 'e' :: rest) = some (.bool true, rest) := by
  rfl

theorem readValue_emptyObject (n : Nat) (rest : Text) :
    readValue (n + 1) ('{' :: '}' :: rest) = some (.object [], rest) := by
  rfl

/-- An object is read by its entries if a key follows the brace. -/
theorem readValue_object (hg : IsGap g)
    (h : readEntries n (g ++ (quote k ++ t)) = some (es, rest)) :
    readValue (n + 1) ('{' :: (g ++ (quote k ++ t))) = some (.object es, rest) := by
  rw [readEntries_gap hg, quote_append] at h
  rw [quote_append]
  generalize k.flatMap escapeChar ++ '"' :: t = u at h ⊢
  have hskip : skipBlanks ('{' :: (g ++ '"' :: u)) = '{' :: (g ++ '"' :: u) := rfl
  have hkey : skipBlanks (g ++ '"' :: u) = '"' :: u := skipBlanks_gap hg _
  rw [readValue, hskip]
  simp only [if_pos, hkey]
  change (readEntries n ('"' :: u)).map _ = _
  rw [h]
  rfl

/-- What is read of an entry goes by its end. -/
theorem readEntries_entry (hg : IsGap g) (hv : readValue n t = some (v, rest)) :
    readEntries (n + 1) (g ++ (quote k ++ ':' :: ' ' :: t)) =
      match skipBlanks rest with
      | '}' :: rest => some ([(k, v)], rest)
      | ',' :: rest => (readEntries n rest).map fun (es, rest) => ((k, v) :: es, rest)
      | _ => none := by
  have hread := readString_enough k (':' :: ' ' :: t)
  have hvalue : readValue n (' ' :: t) = some (v, rest) := by
    have hspace : IsGap [' '] := by simp [IsGap]
    have hgap := readValue_gap hspace n t
    rw [← hv, ← hgap]
    rfl
  rw [readEntries_gap hg, quote_append]
  generalize k.flatMap escapeChar ++ '"' :: ':' :: ' ' :: t = u at hread ⊢
  have hskip : skipBlanks ('"' :: u) = '"' :: u := rfl
  have hcolon : skipBlanks (':' :: ' ' :: t) = ':' :: ' ' :: t := rfl
  rw [readEntries, hskip]
  simp only [hread, bind, Option.bind, hcolon, hvalue]
  generalize skipBlanks rest = ending
  split
  · rfl
  · rename_i later
    change _ = (readEntries n later).map fun p => ((k, v) :: p.1, p.2)
    cases readEntries n later <;> rfl
  · simp

/-- The last entry stands before the closing brace. -/
theorem readEntries_last (hg : IsGap g) (hg' : IsGap g')
    (hv : readValue n t = some (v, g' ++ '}' :: rest)) :
    readEntries (n + 1) (g ++ (quote k ++ ':' :: ' ' :: t)) = some ([(k, v)], rest) := by
  have hend : skipBlanks (g' ++ '}' :: rest) = '}' :: rest := skipBlanks_gap hg' _
  rw [readEntries_entry hg hv, hend]
  rfl

/-- A comma leads on to further entries. -/
theorem readEntries_more (hg : IsGap g) (hv : readValue n t = some (v, ',' :: rest))
    (hes : readEntries n rest = some (es, rest')) :
    readEntries (n + 1) (g ++ (quote k ++ ':' :: ' ' :: t)) = some ((k, v) :: es, rest') := by
  have hend : skipBlanks (',' :: rest) = ',' :: rest := rfl
  rw [readEntries_entry hg hv, hend]
  simp only [hes, Option.map_some]

/-- A text is read by what stands before its last blanks. -/
theorem read?_eq (hg : IsGap g)
    (h : ∀ n, t.length ≤ n → readValue (n + 1) t = some (v, g)) : read? t = some v := by
  have hall : skipBlanks g = [] := by
    have hskip := skipBlanks_gap hg []
    rwa [List.append_nil] at hskip
  rw [read?, h (2 * t.length) (by omega)]
  simp only [bind, Option.bind, hall]
  rfl

end Pagewright.Json
