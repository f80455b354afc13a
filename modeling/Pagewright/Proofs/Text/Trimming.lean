import Mathlib.Data.List.TakeWhile
import Pagewright.Proofs.Text.Runs
import Pagewright.Proofs.Text.Words

namespace Pagewright.Text

variable {p : Char → Bool} {t s w : Text} {c : Char}

theorem dropEndWhile_append (h : ∀ c ∈ s, p c = true) (t : Text) :
    dropEndWhile p (t ++ s) = dropEndWhile p t := by
  have hs : ∀ c ∈ s.reverse, p c = true := by
    intro c hc
    exact h c (List.mem_reverse.mp hc)
  unfold dropEndWhile
  rw [List.reverse_append, List.dropWhile_append_of_pos hs]

theorem dropEndWhile_append_cons (h : p c = false) (s t : Text) :
    dropEndWhile p (s ++ c :: t) = s ++ c :: dropEndWhile p t := by
  have hdrop (xs ys : Text) : (xs ++ c :: ys).dropWhile p = xs.dropWhile p ++ c :: ys := by
    induction xs with
    | nil => simp [h]
    | cons x xs ih =>
      rw [List.cons_append, List.dropWhile_cons, List.dropWhile_cons, ih]
      split <;> rfl
  unfold dropEndWhile
  rw [List.reverse_append, List.reverse_cons, List.append_assoc, List.singleton_append, hdrop]
  simp

theorem exists_dropEndWhile (p : Char → Bool) (t : Text) :
    ∃ s, t = dropEndWhile p t ++ s ∧ ∀ c ∈ s, p c = true := by
  refine ⟨(t.reverse.takeWhile p).reverse, ?_, ?_⟩
  · rw [dropEndWhile, ← List.reverse_append, List.takeWhile_append_dropWhile, List.reverse_reverse]
  · intro c hc
    exact List.all_eq_true.mp List.all_takeWhile c (List.mem_reverse.mp hc)

/-- Nothing is dropped behind a character that stays. -/
theorem dropEndWhile_of_not (h : ∀ c ∈ t.getLast?, p c = false) : dropEndWhile p t = t := by
  obtain ⟨s, hs, hdropped⟩ := exists_dropEndWhile p t
  cases hlast : s.getLast? with
  | none =>
    rw [List.getLast?_eq_none_iff.mp hlast, List.append_nil] at hs
    exact hs.symm
  | some c =>
    have hkept := h c (by rw [hs, List.getLast?_append, hlast]; rfl)
    rw [hdropped c (List.mem_of_getLast? hlast)] at hkept
    cases hkept

/-- Only blanks are dropped. -/
theorem exists_trim (t : Text) : ∃ b b', t = b ++ trim t ++ b' ∧ IsSpace b ∧ IsSpace b' := by
  obtain ⟨b', hb', hspace⟩ := exists_dropEndWhile isBlank (trimLeft t)
  refine ⟨t.takeWhile isBlank, b', ?_, List.all_eq_true.mp List.all_takeWhile, hspace⟩
  have hsplit : t.takeWhile isBlank ++ trimLeft t = t := List.takeWhile_append_dropWhile
  rw [List.append_assoc]
  change t = _ ++ (dropEndWhile isBlank (trimLeft t) ++ b')
  rw [← hb', hsplit]

/-- No blanks stand before a text that starts with none. -/
theorem IsSpace.eq_nil (h : IsSpace w) (hstart : ∀ c ∈ (w ++ t).head?, isBlank c = false) :
    w = [] := by
  cases w with
  | nil => rfl
  | cons c w =>
    have hc := hstart c rfl
    rw [h c List.mem_cons_self] at hc
    cases hc

/-- Blanks around a text make no difference once it is trimmed. -/
theorem trim_around (hp : IsSpace w) (hs : IsSpace s) (t : Text) :
    trim (w ++ t ++ s) = trim t := by
  have hstart : trimLeft (w ++ t ++ s) = trimLeft (t ++ s) := by
    unfold trimLeft
    rw [List.append_assoc, List.dropWhile_append_of_pos hp]
  unfold trim
  rw [hstart]
  by_cases ht : IsSpace t
  · have hts : trimLeft (t ++ s) = [] := by
      apply List.dropWhile_eq_nil_iff.mpr
      intro c hc
      exact (List.mem_append.mp hc).elim (ht c) (hs c)
    have ht : trimLeft t = [] := List.dropWhile_eq_nil_iff.mpr ht
    rw [hts, ht]
  · have hend : trimLeft (t ++ s) = trimLeft t ++ s := by
      unfold trimLeft
      rw [List.dropWhile_append, if_neg]
      intro hnil
      exact ht (List.dropWhile_eq_nil_iff.mp (List.isEmpty_iff.mp hnil))
    rw [hend]
    exact dropEndWhile_append hs _

theorem trim_trim (t : Text) : trim (trim t) = trim t := by
  obtain ⟨b, b', ht, hb, hb'⟩ := exists_trim t
  have haround := trim_around hb hb' (trim t)
  rw [← ht] at haround
  exact haround.symm

/-- A text with no blank at either end. -/
structure IsTrimmed (t : Text) : Prop where
  head : ∀ c ∈ t.head?, isBlank c = false
  last : ∀ c ∈ t.getLast?, isBlank c = false

theorem IsTrimmed.trim_eq (h : IsTrimmed t) : trim t = t := by
  have hleft : trimLeft t = t := by
    cases t with
    | nil => rfl
    | cons c cs => exact List.dropWhile_cons_of_neg (by simp [h.head c rfl])
  rw [trim, hleft]
  exact dropEndWhile_of_not h.last

theorem trim_of_not_blank (h : ∀ c ∈ t, isBlank c = false) : trim t = t := by
  have htrimmed : IsTrimmed t :=
    ⟨fun c hc => h c (List.mem_of_head? hc), fun c hc => h c (List.mem_of_getLast? hc)⟩
  exact htrimmed.trim_eq

/-- A trimmed text does not start with a blank. -/
theorem head?_trim (hc : c ∈ (trim t).head?) : isBlank c = false := by
  obtain ⟨s, hs, -⟩ := exists_dropEndWhile isBlank (trimLeft t)
  have hhead : (trimLeft t).head? = some c := by
    rw [hs, List.head?_append]
    change (trim t).head?.or _ = some c
    rw [Option.mem_def.mp hc]
    rfl
  exact (isRun_takeWhile isBlank t).ends c hhead

theorem isTrimmed_trim (t : Text) : IsTrimmed (trim t) := by
  constructor
  · intro c hc
    exact head?_trim hc
  · intro c hc
    rw [trim, trimRight, dropEndWhile, List.getLast?_reverse] at hc
    exact (isRun_takeWhile isBlank (trimLeft t).reverse).ends c hc

/-- The text that is left of others is the same for all that have it between blanks. -/
theorem trim_eq_iff (h : ∀ c ∈ w, isBlank c = false) :
    trim t = w ↔ ∃ b b', t = b ++ w ++ b' ∧ IsSpace b ∧ IsSpace b' := by
  constructor
  · rintro rfl
    exact exists_trim t
  · rintro ⟨b, b', rfl, hb, hb'⟩
    rw [trim_around hb hb', trim_of_not_blank h]

end Pagewright.Text
