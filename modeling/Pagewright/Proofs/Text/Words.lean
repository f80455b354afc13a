import Pagewright.Text.Blank

namespace Pagewright.Text

def IsSpace (t : Text) : Prop :=
  ∀ c ∈ t, isBlank c = true

/-- A run without blanks. -/
structure IsWord (w : Text) : Prop where
  ne_nil : w ≠ []
  solid : ∀ c ∈ w, isBlank c = false

/-- A text as words with blanks around them. Behind a word the text ends or a blank follows, so
that no word is a part of a longer run. -/
inductive HasWords : Text → List Text → Prop where
  | none {t : Text} (isSpace : IsSpace t) : HasWords t []
  | word {space w rest : Text} {ws : List Text} (isSpace : IsSpace space) (isWord : IsWord w)
    (ends : ∀ c ∈ rest.head?, isBlank c = true) (later : HasWords rest ws) :
    HasWords (space ++ w ++ rest) (w :: ws)

/-- Words one after the other with blanks between neighbours, of any kind and number. -/
inductive Joined : List Text → Text → Prop where
  | one (w : Text) : Joined [w] w
  | more {w space t : Text} {ws : List Text} (isSpace : IsSpace space) (ne_nil : space ≠ [])
    (later : Joined ws t) : Joined (w :: ws) (w ++ space ++ t)

variable {c : Char} {t w rest : Text} {ws : List Text}

theorem words_cons_blank (h : isBlank c = true) (t : Text) : words (c :: t) = words t := by
  cases t with
  | nil => simp [words, h]
  | cons d t => simp [words, h]

theorem words_space (h : IsSpace t) (rest : Text) : words (t ++ rest) = words rest := by
  induction t with
  | nil => rfl
  | cons c t ih =>
    rw [List.cons_append, words_cons_blank (h c List.mem_cons_self)]
    exact ih fun d hd => h d (List.mem_cons_of_mem c hd)

/-- A word ends at the first blank behind it. -/
theorem words_word (h : IsWord w) (hrest : ∀ c ∈ rest.head?, isBlank c = true) :
    words (w ++ rest) = w :: words rest := by
  induction w with
  | nil => exact absurd rfl h.ne_nil
  | cons c w ih =>
    have hc : isBlank c = false := h.solid c List.mem_cons_self
    cases w with
    | nil =>
      cases rest with
      | nil => simp [words, hc]
      | cons d rest => simp [words, hc, hrest d rfl]
    | cons d w =>
      have hd : isBlank d = false := h.solid d (by simp)
      have hlater := ih ⟨List.cons_ne_nil d w, fun x hx => h.solid x (List.mem_cons_of_mem c hx)⟩
      rw [List.cons_append] at hlater
      simp [words, hc, hd, hlater]

/-- A text without words is one of blanks. -/
theorem hasWords_nil : HasWords t [] ↔ IsSpace t := by
  constructor
  · intro h
    cases h with
    | none isSpace => exact isSpace
  · exact .none

theorem HasWords.words_eq (h : HasWords t ws) : words t = ws := by
  induction h with
  | none isSpace =>
    have hwords := words_space isSpace []
    rwa [List.append_nil] at hwords
  | word isSpace isWord ends later ih =>
    rw [List.append_assoc, words_space isSpace, words_word isWord ends, ih]

/-- A word at the start. -/
theorem HasWords.first (h : IsWord w) (ends : ∀ c ∈ rest.head?, isBlank c = true)
    (later : HasWords rest ws) : HasWords (w ++ rest) (w :: ws) := by
  have hspace : IsSpace [] := by simp [IsSpace]
  have hword := HasWords.word hspace h ends later
  exact hword

theorem HasWords.cons_blank (h : HasWords t ws) (hc : isBlank c = true) :
    HasWords (c :: t) ws := by
  cases h with
  | none isSpace => exact .none (List.forall_mem_cons.mpr ⟨hc, isSpace⟩)
  | word isSpace isWord ends later =>
    rw [← List.cons_append, ← List.cons_append]
    exact .word (List.forall_mem_cons.mpr ⟨hc, isSpace⟩) isWord ends later

/-- A character in front of a word belongs to it. -/
theorem HasWords.cons_solid {d : Char} (h : HasWords (d :: t) (w :: ws))
    (hd : isBlank d = false) (hc : isBlank c = false) : HasWords (c :: d :: t) ((c :: w) :: ws) := by
  generalize ht : d :: t = u at h
  cases h with
  | @word space _ rest _ isSpace isWord ends later =>
    cases space with
    | cons x space =>
      obtain ⟨rfl, -⟩ := List.cons.inj ht
      exact absurd (isSpace d List.mem_cons_self) (by simp [hd])
    | nil =>
      have hword : IsWord (c :: w) :=
        ⟨List.cons_ne_nil c w, List.forall_mem_cons.mpr ⟨hc, isWord.solid⟩⟩
      exact .first hword ends later

theorem hasWords_words (t : Text) : HasWords t (words t) := by
  have hspace : IsSpace [] := by simp [IsSpace]
  have hone {c : Char} (hc : ¬isBlank c = true) : IsWord [c] :=
    ⟨List.cons_ne_nil c [], by simpa using hc⟩
  fun_induction words t with
  | case1 => exact .none hspace
  | case2 c hc => exact .none (by simpa [IsSpace] using hc)
  | case3 c hc => exact .first (hone hc) (by simp) (.none hspace)
  | case4 c d cs hc ih => exact ih.cons_blank hc
  | case5 c d cs hc hd ih => exact .first (hone hc) (by simpa using hd) ih
  | case6 c d cs hc hd hnil ih =>
    rw [hnil] at ih
    exact absurd (hasWords_nil.mp ih d List.mem_cons_self) hd
  | case7 c d cs hc hd w ws hcons ih =>
    rw [hcons] at ih
    exact ih.cons_solid (by simpa using hd) (by simpa using hc)

theorem words_eq_iff : words t = ws ↔ HasWords t ws := by
  constructor
  · rintro rfl
    exact hasWords_words t
  · exact HasWords.words_eq

theorem HasWords.isWord (h : HasWords t ws) : ∀ w ∈ ws, IsWord w := by
  induction h with
  | none => simp
  | word isSpace isWord ends later ih => exact List.forall_mem_cons.mpr ⟨isWord, ih⟩

/-- Words that blanks keep apart are the words of the whole. -/
theorem Joined.hasWords (h : Joined ws t) (hws : ∀ w ∈ ws, IsWord w) : HasWords t ws := by
  induction h with
  | one w =>
    have hend : HasWords [] [] := .none (by simp [IsSpace])
    have h := HasWords.first (hws w List.mem_cons_self) (by simp) hend
    rwa [List.append_nil] at h
  | @more w space t ws isSpace ne_nil later ih =>
    have hlater := ih fun x hx => hws x (List.mem_cons_of_mem w hx)
    have hrest : HasWords (space ++ t) ws := by
      have hwords := words_space isSpace t
      rw [hlater.words_eq] at hwords
      exact words_eq_iff.mp hwords
    have hends : ∀ c ∈ (space ++ t).head?, isBlank c = true := by
      cases space with
      | nil => exact absurd rfl ne_nil
      | cons x space => simpa using isSpace x List.mem_cons_self
    rw [List.append_assoc]
    exact .first (hws w List.mem_cons_self) hends hrest

end Pagewright.Text
