import Pagewright.Proofs.Text.Lines
import Pagewright.Proofs.Text.Replace

namespace Pagewright.Text

variable {s t : Text} {c : Char}

/-- Whether a closing tag can start somewhere in a text. -/
def Closes (t : Text) : Prop :=
  ['<', '/'] <:+: t

instance (t : Text) : Decidable (Closes t) :=
  inferInstanceAs (Decidable (_ <:+: _))

def closings : Text → List Nat
  | [] => []
  | c :: t =>
    let later := (closings t).map (· + 1)
    if c = '<' ∧ t.head? = some '/' then 0 :: later else later

@[simp]
theorem closes_nil : ¬Closes [] := by decide

theorem pair_prefix_cons {a b : Char} :
    [a, b] <+: c :: t ↔ c = a ∧ t.head? = some b := by
  have hhead : [b] <+: t ↔ t.head? = some b := by
    cases t with
    | nil => simp
    | cons d t => simp [List.cons_prefix_cons, eq_comm]
  rw [List.cons_prefix_cons, hhead, eq_comm]

theorem pair_infix_cons {a b : Char} :
    [a, b] <:+: c :: t ↔ (c = a ∧ t.head? = some b) ∨ [a, b] <:+: t := by
  rw [List.infix_cons_iff, pair_prefix_cons]

/-- Joining two texts brings two characters about only where they meet. -/
theorem pair_infix_append {a b : Char} :
    [a, b] <:+: s ++ t ↔
      [a, b] <:+: s ∨ [a, b] <:+: t ∨ (s.getLast? = some a ∧ t.head? = some b) := by
  induction s with
  | nil => simp
  | cons c s ih =>
    rw [List.cons_append, pair_infix_cons, pair_infix_cons, ih]
    cases s with
    | nil => simp [or_comm]
    | cons d s =>
      rw [List.getLast?_cons_cons, List.cons_append, List.head?_cons, List.head?_cons, or_assoc]

/-- A third character between the two leaves none of their occurrences. -/
theorem not_pair_infix_replace {a b c : Char} (hab : a ≠ b) (hca : c ≠ a) (hcb : c ≠ b) (t : Text) :
    ¬[a, b] <:+: replace t [a, b] [a, c, b] := by
  have hthree : ¬[a, b] <:+: [a, c, b] := by
    simp [pair_infix_cons, hca, hcb]
  have hall : ∀ n, ¬[a, b] <:+: replaceFrom [a, b] [a, c, b] n t := by
    induction t with
    | nil => simp
    | cons d t ih =>
      intro n
      cases n with
      | succ n => exact ih n
      | zero =>
        rw [replaceFrom]
        split
        · rw [pair_infix_append, not_or, not_or]
          exact ⟨hthree, ih _, fun hmeet => hab (Option.some.inj hmeet.1).symm⟩
        · rename_i hp
          rw [pair_infix_cons, not_or]
          refine ⟨?_, ih 0⟩
          rintro ⟨rfl, hhead⟩
          have hsame : (replace t [d, b] [d, c, b]).head? = t.head? := head?_replace t
          have ht : t.head? = some b := hsame.symm.trans hhead
          obtain ⟨u, rfl⟩ := List.head?_eq_some_iff.mp ht
          exact hp (List.isPrefixOf_iff_prefix.mpr (List.prefix_append [d, b] u))
  exact hall 0

/-- The place of two characters that occur neither before nor after it is the only one. -/
theorem pair_split_iff {a b : Char} {x y : Text} (hs : ¬[a, b] <:+: s ++ [a])
    (ht : ¬[a, b] <:+: b :: t) : s ++ a :: b :: t = x ++ a :: b :: y ↔ s = x ∧ t = y := by
  constructor
  · intro h
    rcases List.append_eq_append_iff.mp h with ⟨u, hx, hu⟩ | ⟨u, hx, hu⟩
    · cases u with
      | nil => simp_all
      | cons c u =>
        have hlater : b :: t = u ++ a :: b :: y := (List.cons.inj hu).2
        exact absurd (hlater ▸ ⟨u, y, by simp⟩) ht
    · cases u with
      | nil => simp_all
      | cons c u =>
        obtain ⟨rfl, hlater⟩ := List.cons.inj hu
        refine absurd ?_ hs
        cases u with
        | nil => exact ⟨x, [], by simp [hx, (List.cons.inj hlater).1]⟩
        | cons d u => exact ⟨x, u ++ [a], by simp [hx, (List.cons.inj hlater).1]⟩
  · rintro ⟨rfl, rfl⟩
    rfl

theorem not_pair_infix_of_not_mem {a b : Char} (h : a ∉ t ∨ b ∉ t) : ¬[a, b] <:+: t :=
  fun ht => h.elim (fun h => h (ht.subset (by simp))) (fun h => h (ht.subset (by simp)))

theorem closes_cons : Closes (c :: t) ↔ (c = '<' ∧ t.head? = some '/') ∨ Closes t :=
  pair_infix_cons

/-- A character that is not the first of the two opens nothing. -/
@[simp]
theorem closes_cons_of_ne (h : c ≠ '<') : Closes (c :: t) ↔ Closes t := by
  simp [closes_cons, h]

theorem closes_iff_exists : Closes t ↔ ∃ a b, t = a ++ '<' :: '/' :: b := by
  constructor
  · rintro ⟨a, b, rfl⟩
    exact ⟨a, b, by simp⟩
  · rintro ⟨a, b, rfl⟩
    exact ⟨a, b, by simp⟩

theorem Closes.of_infix (h : Closes s) (hs : s <:+: t) : Closes t :=
  List.IsInfix.trans h hs

/-- Joining two texts brings the two characters about only where they meet. -/
theorem closes_append :
    Closes (s ++ t) ↔
      Closes s ∨ Closes t ∨ (s.getLast? = some '<' ∧ t.head? = some '/') :=
  pair_infix_append

theorem closes_append_of_getLast? (h : s.getLast? ≠ some '<') :
    Closes (s ++ t) ↔ Closes s ∨ Closes t := by
  simp [closes_append, h]

theorem closes_append_of_head? (h : t.head? ≠ some '/') :
    Closes (s ++ t) ↔ Closes s ∨ Closes t := by
  simp [closes_append, h]

/-- A character that is neither of the two keeps what stands around it apart. -/
@[simp]
theorem closes_append_cons (hl : c ≠ '<') (hs : c ≠ '/') :
    Closes (s ++ c :: t) ↔ Closes s ∨ Closes t := by
  rw [closes_append_of_head? (by simpa using hs), closes_cons_of_ne hl]

/-- A text that keeps apart what stands before it and after it. -/
def Parts (sep : Text) : Prop :=
  sep ≠ [] ∧ ¬Closes sep ∧ sep.head? ≠ some '/' ∧ sep.getLast? ≠ some '<'

instance (sep : Text) : Decidable (Parts sep) :=
  inferInstanceAs (Decidable (_ ∧ _))

theorem Parts.closes_append {sep : Text} (h : Parts sep) :
    Closes (s ++ sep ++ t) ↔ Closes s ∨ Closes t := by
  obtain ⟨hne, hsep, hhead, hlast⟩ := h
  have hends : (s ++ sep).getLast? ≠ some '<' := by
    rwa [List.getLast?_append, Option.or_of_isSome (List.getLast?_isSome.mpr hne)]
  rw [closes_append_of_getLast? hends, closes_append_of_head? hhead]
  simp [hsep]

theorem Parts.closes_join {sep : Text} (h : Parts sep) (ts : List Text) :
    Closes (join sep ts) ↔ ∃ t ∈ ts, Closes t := by
  induction ts with
  | nil => simp [join]
  | cons t ts ih =>
    cases ts with
    | nil => simp [join]
    | cons u us =>
      rw [join, List.intercalate_cons_cons, h.closes_append, ← join, ih]
      simp

theorem not_closes_of_not_mem (h : '<' ∉ t) : ¬Closes t :=
  not_pair_infix_of_not_mem (.inl h)

theorem mem_closings {i : Nat} : i ∈ closings t ↔ ['<', '/'] <+: t.drop i := by
  induction t generalizing i with
  | nil => simp [closings]
  | cons c t ih =>
    cases i with
    | zero =>
      rw [List.drop_zero, pair_prefix_cons, closings]
      split <;> simp_all
    | succ i =>
      rw [List.drop_succ_cons, ← ih, closings]
      split <;> simp

theorem lt_of_mem_closings {i : Nat} (h : i ∈ closings t) : i < t.length := by
  have hlen := (mem_closings.mp h).length_le
  rw [List.length_drop, List.length_cons] at hlen
  omega

theorem closings_eq_nil : closings t = [] ↔ ¬Closes t := by
  induction t with
  | nil => simp [closings]
  | cons c t ih =>
    rw [closings, closes_cons, not_or, ← ih]
    split <;> simp_all

/-- The places in joined texts are those in each of them, as long as none arises where they
meet. -/
theorem closings_append (h : s.getLast? ≠ some '<' ∨ t.head? ≠ some '/') :
    closings (s ++ t) = closings s ++ (closings t).map (· + s.length) := by
  induction s with
  | nil => simp [closings]
  | cons c s ih =>
    cases s with
    | nil =>
      have hjoin : ¬(c = '<' ∧ t.head? = some '/') := by
        intro hc
        cases h with
        | inl h => exact h (by simp [hc.1])
        | inr h => exact h hc.2
      simp [closings, hjoin]
    | cons d s =>
      rw [List.getLast?_cons_cons] at h
      have hlater : (closings (d :: s ++ t)).map (· + 1) =
          (closings (d :: s)).map (· + 1) ++ (closings t).map (· + (c :: d :: s).length) := by
        rw [ih h, List.map_append, List.map_map]
        rfl
      rw [List.cons_append, closings, closings, hlater, List.cons_append, List.head?_cons,
        List.head?_cons]
      split <;> rfl

/-- Between two texts that end and start apart, a text without such places adds none. -/
theorem closings_around {u : Text} (hs : s.getLast? ≠ some '<') (ht : t.head? ≠ some '/')
    (hu : ¬Closes u) :
    closings (s ++ u ++ t) = closings s ++ (closings t).map (· + (s.length + u.length)) := by
  rw [closings_append (.inr ht), closings_append (.inl hs), closings_eq_nil.mpr hu,
    List.length_append]
  simp

/-- Where a place of `a ++ b ++ c` is once `s` and `t` stand between the three. -/
def placed (a b s t : Text) (i : Nat) : Nat :=
  if i < a.length then i
  else if i < a.length + b.length then i + s.length
  else i + s.length + t.length

/-- Texts without such places, filled into the gaps of a text, only move the places that it has. -/
theorem closings_filled {a b c s t : Text} (ha : a.getLast? ≠ some '<')
    (hb : b ≠ [] ∧ b.head? ≠ some '/' ∧ b.getLast? ≠ some '<') (hc : c.head? ≠ some '/')
    (hs : ¬Closes s) (ht : ¬Closes t) :
    closings (a ++ s ++ b ++ t ++ c) = (closings (a ++ b ++ c)).map (placed a b s t) := by
  obtain ⟨hne, hhead, hlast⟩ := hb
  have hends : (a ++ s ++ b).getLast? ≠ some '<' := by
    rwa [List.getLast?_append, Option.or_of_isSome (List.getLast?_isSome.mpr hne)]
  have hfirst : ∀ i ∈ closings a, placed a b s t i = i := by
    intro i hi
    exact if_pos (lt_of_mem_closings hi)
  have hsecond : ∀ i ∈ closings b,
      placed a b s t (i + a.length) = i + (a.length + s.length) := by
    intro i hi
    have hlt := lt_of_mem_closings hi
    rw [placed, if_neg (by omega), if_pos (by omega)]
    omega
  have hthird : ∀ i ∈ closings c,
      placed a b s t (i + (a ++ b).length) = i + ((a ++ s ++ b).length + t.length) := by
    intro i _
    simp only [List.length_append]
    rw [placed, if_neg (by omega), if_neg (by omega)]
    omega
  calc closings (a ++ s ++ b ++ t ++ c)
      = closings a ++ (closings b).map (· + (a.length + s.length)) ++
          (closings c).map (· + ((a ++ s ++ b).length + t.length)) := by
        rw [closings_around hends hc ht, closings_around ha hhead hs]
    _ = (closings a).map (placed a b s t) ++
          (closings b).map (fun i => placed a b s t (i + a.length)) ++
          (closings c).map (fun i => placed a b s t (i + (a ++ b).length)) := by
        rw [List.map_congr_left hsecond, List.map_congr_left hthird,
          List.map_congr_left hfirst, List.map_id']
    _ = (closings (a ++ b ++ c)).map (placed a b s t) := by
        rw [closings_append (.inr hc), closings_append (.inr hhead), List.map_append,
          List.map_append, List.map_map, List.map_map]
        rfl

/-- A way to write characters one by one in which `<` and `/` come from nowhere but themselves. -/
def Spares (f : Char → Text) : Prop :=
  ∀ c, f c = [c] ∨ (c ≠ '<' ∧ c ≠ '/' ∧ f c ≠ [] ∧ '<' ∉ f c ∧ '/' ∉ f c)

theorem Spares.head? {f : Char → Text} (hf : Spares f) :
    (t.flatMap f).head? = some '/' ↔ t.head? = some '/' := by
  cases t with
  | nil => simp
  | cons c t =>
    rcases hf c with h | ⟨-, hs, hne, -, hm⟩
    · simp [h]
    · obtain ⟨d, ds, hd⟩ := List.exists_cons_of_ne_nil hne
      rw [hd] at hm
      have hds : d ≠ '/' := by
        rintro rfl
        simp at hm
      simp [hd, hs, hds]

theorem Spares.closes_flatMap {f : Char → Text} (hf : Spares f) :
    Closes (t.flatMap f) ↔ Closes t := by
  induction t with
  | nil => simp
  | cons c t ih =>
    rw [List.flatMap_cons]
    rcases hf c with h | ⟨hl, -, -, hm, -⟩
    · rw [h, List.singleton_append, closes_cons, closes_cons, ih, hf.head?]
    · have hlast : (f c).getLast? ≠ some '<' := fun h => hm (List.mem_of_getLast? h)
      rw [closes_append_of_getLast? hlast, closes_cons_of_ne hl, ih]
      simp [not_closes_of_not_mem hm]

/-- A backslash between the two characters leaves none of their occurrences. -/
theorem not_closes_replace (t : Text) : ¬Closes (replace t "</" "<\\/") :=
  not_pair_infix_replace (by decide) (by decide) (by decide) t

/-- Cutting off the starts of lines brings the two characters about nowhere: a line feed stands
before each line. -/
theorem Closes.of_line_ends {f : Text → Text} (hf : ∀ l, f l <:+ l) {t : Text}
    (h : Closes ((lineList t).flatMap f)) : Closes t := by
  have hall : ∀ ls : List Text, (ls.IsChain fun l _ => l.getLast? = some '\n') →
      Closes (ls.flatMap f) → Closes ls.flatten := by
    intro ls hls hc
    induction ls with
    | nil => exact hc
    | cons l ls ih =>
      rw [List.flatten_cons, closes_append]
      rw [List.flatMap_cons, closes_append] at hc
      rcases hc with hc | hc | ⟨hlast, hhead⟩
      · exact .inl (hc.of_infix (hf l).isInfix)
      · exact .inr (.inl (ih hls.tail hc))
      · cases ls with
        | nil => cases hhead
        | cons m ms =>
          -- The end of a line is the end of what is left of it, and no `<`.
          have hfeed : l.getLast? = some '\n' := (List.isChain_cons_cons.mp hls).1
          obtain ⟨u, hu⟩ := hf l
          rw [← hu, List.getLast?_append, hlast] at hfeed
          cases hfeed
  rw [← flatten_lineList t]
  exact hall _ (lineList_ends t) h

end Pagewright.Text
