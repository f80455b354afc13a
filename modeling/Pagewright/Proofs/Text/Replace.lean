import Pagewright.Text.Basic

namespace Pagewright.Text

variable {target by_ : Text} {c : Char}

@[simp]
theorem replaceFrom_nil (n : Nat) : replaceFrom target by_ n [] = [] := by
  cases n <;> rfl

@[simp]
theorem replace_nil : replace [] target by_ = [] := rfl

theorem replaceFrom_length (s t : Text) :
    replaceFrom target by_ s.length (s ++ t) = replace t target by_ := by
  induction s with
  | nil => rfl
  | cons d s ih => exact ih

/-- An occurrence at the start is replaced. -/
theorem replace_target {cs : Text} (t : Text) :
    replace (c :: cs ++ t) (c :: cs) by_ = by_ ++ replace t (c :: cs) by_ := by
  have hp : (c :: cs).isPrefixOf (c :: (cs ++ t)) = true :=
    List.isPrefixOf_iff_prefix.mpr (List.prefix_append (c :: cs) t)
  rw [replace, List.cons_append, replaceFrom, if_pos hp, List.length_cons, Nat.add_sub_cancel,
    replaceFrom_length]

theorem replace_other {t : Text} (h : ¬target <+: c :: t) :
    replace (c :: t) target by_ = c :: replace t target by_ := by
  rw [replace, replaceFrom, if_neg (mt List.isPrefixOf_iff_prefix.mp h)]
  rfl

/-- Nothing is replaced where the target does not occur. -/
theorem replace_eq_self {t : Text} (h : ¬target <:+: t) : replace t target by_ = t := by
  induction t with
  | nil => rfl
  | cons d t ih =>
    have hlater : ¬target <:+: t := by
      intro ht
      exact h (ht.trans (List.suffix_cons d t).isInfix)
    rw [replace_other (mt List.IsPrefix.isInfix h), ih hlater]

/-- A replacement that starts like the target leaves the start of the text. -/
theorem head?_replace {cs ds : Text} (t : Text) :
    (replace t (c :: cs) (c :: ds)).head? = t.head? := by
  cases t with
  | nil => rfl
  | cons d t =>
    by_cases hp : c :: cs <+: d :: t
    · rw [replace, replaceFrom, if_pos (List.isPrefixOf_iff_prefix.mpr hp)]
      exact congrArg some (List.cons_prefix_cons.mp hp).1
    · rw [replace_other hp]
      rfl

/-- What does not hold the first character of the target is kept. -/
theorem replace_append {cs s : Text} (h : c ∉ s) (t : Text) :
    replace (s ++ t) (c :: cs) by_ = s ++ replace t (c :: cs) by_ := by
  induction s with
  | nil => rfl
  | cons d s ih =>
    have hd : ¬(c :: cs) <+: d :: (s ++ t) := by
      intro hp
      exact h (by simp [(List.cons_prefix_cons.mp hp).1])
    rw [List.cons_append, replace_other hd, ih fun hs => h (List.mem_cons_of_mem d hs)]
    rfl

/-- A character comes from the text or from the replacement. -/
theorem not_mem_replaceFrom {t : Text} (ht : c ∉ t) (hb : c ∉ by_) (n : Nat) :
    c ∉ replaceFrom target by_ n t := by
  induction t generalizing n with
  | nil => simp
  | cons d t ih =>
    rw [List.mem_cons, not_or] at ht
    obtain ⟨hd, ht⟩ := ht
    cases n with
    | succ n => exact ih ht n
    | zero =>
      rw [replaceFrom]
      split
      · rw [List.mem_append, not_or]
        exact ⟨hb, ih ht _⟩
      · rw [List.mem_cons, not_or]
        exact ⟨hd, ih ht 0⟩

theorem not_mem_replace {t : Text} (ht : c ∉ t) (hb : c ∉ by_) : c ∉ replace t target by_ :=
  not_mem_replaceFrom ht hb 0

/-- Replacing a single character. -/
theorem replace_single (t : Text) :
    replace t [c] by_ = t.flatMap fun d => if d = c then by_ else [d] := by
  induction t with
  | nil => rfl
  | cons d t ih =>
    rw [List.flatMap_cons, ← ih]
    split
    · subst d
      exact replace_target t
    · rename_i hd
      exact replace_other fun hp => hd (List.cons_prefix_cons.mp hp).1.symm

/-- An occurrence before a character that it does not hold ends before it. -/
theorem prefix_before {s t : Text} (hc : c ∉ target) (h : target <+: s ++ c :: t) :
    target <+: s := by
  by_cases hle : target.length ≤ s.length
  · exact List.prefix_of_prefix_length_le h (List.prefix_append s _) hle
  · have hs : s ++ [c] <+: target := by
      refine List.prefix_of_prefix_length_le ⟨t, by simp⟩ h ?_
      rw [List.length_append, List.length_singleton]
      omega
    exact absurd (hs.subset (by simp)) hc

/-- A character that the target does not hold parts the text: both sides are replaced on their
own. -/
theorem replaceFrom_append_cons (hc : c ∉ target) (hne : target ≠ []) {n : Nat} {s : Text}
    (hn : n ≤ s.length) (t : Text) :
    replaceFrom target by_ n (s ++ c :: t) =
      replaceFrom target by_ n s ++ c :: replace t target by_ := by
  induction s generalizing n with
  | nil =>
    obtain rfl := Nat.le_zero.mp hn
    exact replace_other fun hp => hne (List.prefix_nil.mp (prefix_before (s := []) hc hp))
  | cons d s ih =>
    cases n with
    | succ n => exact ih (Nat.le_of_succ_le_succ hn)
    | zero =>
      simp only [List.cons_append, replaceFrom, List.isPrefixOf_iff_prefix]
      by_cases hp : target <+: d :: s
      · have hl : target.length - 1 ≤ s.length := Nat.sub_le_of_le_add hp.length_le
        have hpt : target <+: d :: (s ++ c :: t) := hp.trans ⟨c :: t, rfl⟩
        rw [if_pos hp, if_pos hpt, ih hl, List.append_assoc]
      · have hpt : ¬target <+: d :: (s ++ c :: t) := mt (prefix_before (s := d :: s) hc) hp
        rw [if_neg hp, if_neg hpt, ih (Nat.zero_le _)]
        rfl

theorem replace_append_cons (hc : c ∉ target) (hne : target ≠ []) (s t : Text) :
    replace (s ++ c :: t) target by_ = replace s target by_ ++ c :: replace t target by_ :=
  replaceFrom_append_cons hc hne (Nat.zero_le _) t

/-- A character that is left after deletions stood in the text, and what was deleted before it and
after it are deleted on their own. -/
theorem replaceFrom_eq_append_cons {n : Nat} {t p q : Text}
    (h : replaceFrom target [] n t = p ++ c :: q) :
    ∃ a b, t = a ++ c :: b ∧ n ≤ a.length ∧ replaceFrom target [] n a = p ∧
      replace b target [] = q := by
  induction t generalizing n p with
  | nil => simp at h
  | cons d t ih =>
    cases n with
    | succ n =>
      obtain ⟨a, b, rfl, hn, ha, hb⟩ := ih h
      exact ⟨d :: a, b, rfl, Nat.succ_le_succ hn, ha, hb⟩
    | zero =>
      simp only [replaceFrom, List.isPrefixOf_iff_prefix, List.nil_append] at h
      split at h
      · rename_i hp
        obtain ⟨a, b, rfl, hn, ha, hb⟩ := ih h
        have hpa : target <+: d :: a := by
          refine List.prefix_of_prefix_length_le hp ⟨c :: b, rfl⟩ ?_
          rw [List.length_cons]
          omega
        refine ⟨d :: a, b, rfl, Nat.zero_le _, ?_, hb⟩
        rw [replaceFrom, if_pos (List.isPrefixOf_iff_prefix.mpr hpa), ha, List.nil_append]
      · rename_i hp
        cases p with
        | nil =>
          obtain ⟨rfl, rfl⟩ := List.cons.inj h
          exact ⟨[], t, rfl, Nat.le_refl _, rfl, rfl⟩
        | cons e p =>
          obtain ⟨rfl, htail⟩ := List.cons.inj h
          obtain ⟨a, b, rfl, -, ha, hb⟩ := ih htail
          refine ⟨d :: a, b, rfl, Nat.zero_le _, ?_, hb⟩
          rw [← replace, replace_other fun hpa => hp (hpa.trans ⟨c :: b, rfl⟩), replace, ha]

theorem replace_eq_append_cons {t p q : Text} (h : replace t target [] = p ++ c :: q) :
    ∃ a b, t = a ++ c :: b ∧ replace a target [] = p ∧ replace b target [] = q := by
  obtain ⟨a, b, ht, -, ha, hb⟩ := replaceFrom_eq_append_cons h
  exact ⟨a, b, ht, ha, hb⟩

end Pagewright.Text
