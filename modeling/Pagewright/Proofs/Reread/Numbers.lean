import Pagewright.Proofs.Lexing.Advance
import Pagewright.Proofs.Result

namespace Pagewright.Syntax

def isSeparator (c : Char) : Bool :=
  c = ',' || c = ')' || c = '\x7d' || c = '\n'

/-- The second text is the first one up to some place, where it may go on with a separator. -/
inductive Rejoins : Text → Text → Prop where
  | same (u : Text) : Rejoins u u
  | cut {u u' : Text} {c : Char} (separator : isSeparator c = true) : Rejoins u (c :: u')
  | cons {u u' : Text} (c : Char) (later : Rejoins u u') : Rejoins (c :: u) (c :: u')

namespace Rejoins

variable {u u' w : Text} {c c' : Char} {p : Char → Bool}

theorem append (w : Text) (h : Rejoins u u') : Rejoins (w ++ u) (w ++ u') := by
  induction w with
  | nil => exact h
  | cons c w ih => exact .cons c ih

theorem of_nil (h : Rejoins u []) : u = [] := by
  cases h
  rfl

theorem of_cons (h : Rejoins (c :: u) (c' :: u')) :
    isSeparator c' = true ∨ c' = c ∧ Rejoins u u' := by
  cases h with
  | same => exact .inr ⟨rfl, .same u⟩
  | cut separator => exact .inl separator
  | cons _ later => exact .inr ⟨rfl, later⟩

theorem nil_cons (h : Rejoins [] (c' :: u')) : isSeparator c' = true := by
  cases h with
  | cut separator => exact separator

/-- What does not come next and is no separator does not come next again. -/
theorem fails (h : Rejoins u u') (hp : ∀ c, isSeparator c = true → p c = false)
    (hu : u.head?.any p = false) : u'.head?.any p = false := by
  cases h with
  | same => exact hu
  | cut separator => exact hp _ separator
  | cons => exact hu

theorem head_ne (h : Rejoins u u') (hc : isSeparator c = false) (hu : u.head? ≠ some c) :
    u'.head? ≠ some c := by
  cases h with
  | same => exact hu
  | cut separator =>
    rintro heq
    obtain rfl := Option.some.inj heq
    rw [hc] at separator
    cases separator
  | cons => exact hu

end Rejoins

theorem isSeparator_eq {c : Char} (h : isSeparator c = true) :
    c = ',' ∨ c = ')' ∨ c = '\x7d' ∨ c = '\n' := by
  simpa [isSeparator, or_assoc] using h

/-- A test that fails at every separator. -/
theorem separator_all {p : Char → Bool} (h : [',', ')', '\x7d', '\n'].all (!p ·) = true) (c : Char)
    (hc : isSeparator c = true) : p c = false := by
  have hmem : c ∈ [',', ')', '\x7d', '\n'] := by simpa using isSeparator_eq hc
  simpa using List.all_eq_true.mp h c hmem

theorem digitRun_none {isDigit : Char → Bool} {c : Char} (hc : isDigit c = false) (hu : c ≠ '_')
    (cs : Text) : digitRun isDigit (c :: cs) = ([], 0) := by
  rw [digitRun, hc, if_neg (by simp), if_neg fun h => hu h.1]

section Digits

variable {isDigit : Char → Bool} (hd : ∀ c, isSeparator c = true → isDigit c = false)

include hd

theorem digitRun_separator {c : Char} (hc : isSeparator c = true) (cs : Text) :
    digitRun isDigit (c :: cs) = ([], 0) := by
  have hne : c ≠ '_' := by
    rintro rfl
    cases hc
  exact digitRun_none (hd c hc) hne cs

/-- A run of digits is the same as long as what follows it is. -/
theorem digitRun_again (t : Text) {u : Text} (h : Rejoins (t.drop (digitRun isDigit t).2) u) :
    digitRun isDigit (t.take (digitRun isDigit t).2 ++ u) = digitRun isDigit t := by
  induction t with
  | nil =>
    cases u with
    | nil => rfl
    | cons c u => exact digitRun_separator hd (Rejoins.nil_cons (by simpa using h)) u
  | cons c cs ih =>
    by_cases hc : isDigit c = true
    · have heq : digitRun isDigit (c :: cs) =
          (c :: (digitRun isDigit cs).1, (digitRun isDigit cs).2 + 1) := by
        rw [digitRun, if_pos hc]
      rw [heq] at h ⊢
      simp only [List.take_succ_cons, List.drop_succ_cons, List.cons_append] at h ⊢
      rw [digitRun, if_pos hc, ih h]
    · by_cases hu : c = '_' ∧ cs.head?.any isDigit = true
      · have heq : digitRun isDigit (c :: cs) =
            ((digitRun isDigit cs).1, (digitRun isDigit cs).2 + 1) := by
          rw [digitRun, if_neg hc, if_pos hu]
        rw [heq] at h ⊢
        simp only [List.take_succ_cons, List.drop_succ_cons, List.cons_append] at h ⊢
        have hnext : (cs.take (digitRun isDigit cs).2 ++ u).head?.any isDigit = true := by
          cases cs with
          | nil => simp at hu
          | cons d ds =>
            have hdigit : isDigit d = true := by simpa using hu.2
            rw [digitRun, if_pos hdigit]
            simpa using hdigit
        rw [digitRun, if_neg hc, if_pos ⟨hu.1, hnext⟩, ih h]
      · have heq : digitRun isDigit (c :: cs) = ([], 0) := by
          rw [digitRun, if_neg hc, if_neg hu]
        rw [heq] at h ⊢
        simp only [List.take_zero, List.drop_zero, List.nil_append] at h ⊢
        cases u with
        | nil => cases h.of_nil
        | cons d u =>
          rcases h.of_cons with hsep | ⟨rfl, hlater⟩
          · exact digitRun_separator hd hsep u
          · rw [digitRun, if_neg hc, if_neg]
            rintro ⟨hunder, hnext⟩
            have hno : cs.head?.any isDigit = false := by simpa [hunder] using hu
            rw [hlater.fails hd hno] at hnext
            cases hnext

end Digits

theorem isDigit_separator {c : Char} (hc : isSeparator c = true) : c.isDigit = false :=
  separator_all (by decide) c hc

theorem isDigitIn_separator {base : Nat} (hb : base ≤ 16) {c : Char} (hc : isSeparator c = true) :
    isDigitIn base c = false := by
  unfold isDigitIn
  split
  · exact separator_all (p := fun c => c.isDigit || ('a' ≤ c && c ≤ 'f') || ('A' ≤ c && c ≤ 'F'))
      (by decide) c hc
  · rcases isSeparator_eq hc with rfl | rfl | rfl | rfl
    · rfl
    · rfl
    · have hcode : '\x7d'.toNat = 125 := rfl
      simp only [hcode, Bool.and_eq_false_iff, decide_eq_false_iff_not]
      omega
    · rfl

/-- No exponent starts where none did. -/
theorem Rejoins.atExponent {u u' : Text} (h : Rejoins u u') (hno : Syntax.atExponent u = false) :
    Syntax.atExponent u' = false := by
  match u', h with
  | [], _ => rfl
  | [_], _ => rfl
  | e' :: s' :: rest', h =>
    have hmark : isSeparator e' = true → isExponentMark e' = false := separator_all (by decide) e'
    have hsign : isSeparator s' = true →
        (s'.isDigit || ((s' = '+' || s' = '-') && rest'.head?.any Char.isDigit)) = false := by
      intro hs
      rcases isSeparator_eq hs with rfl | rfl | rfl | rfl <;> rfl
    simp only [Syntax.atExponent, Bool.and_eq_false_iff]
    cases u with
    | nil => exact .inl (hmark h.nil_cons)
    | cons e v =>
      rcases h.of_cons with hsep | ⟨rfl, hlater⟩
      · exact .inl (hmark hsep)
      · cases v with
        | nil => exact .inr (hsign hlater.nil_cons)
        | cons s rest =>
          rcases hlater.of_cons with hsep | ⟨rfl, hrest⟩
          · exact .inr (hsign hsep)
          · simp only [Syntax.atExponent, Bool.and_eq_false_iff] at hno
            refine hno.imp_right fun hno => ?_
            simp only [Bool.or_eq_false_iff, Bool.and_eq_false_iff] at hno ⊢
            exact ⟨hno.1, hno.2.imp_right (hrest.fails fun c => isDigit_separator)⟩

/-- What a reading function passes over is read again where what follows it rejoins. -/
def ReadAgain {α β : Type} (erase : α → β) (read : Rest → Except Fault (α × Rest)) (r : Rest) :
    Prop :=
  ∀ x r', read r = .ok (x, r') → ∃ w, r.text = w ++ r'.text ∧ ∀ u offset, Rejoins r'.text u →
    ∃ x' place, read ⟨w ++ u, offset⟩ = .ok (x', ⟨u, place⟩) ∧ erase x' = erase x

/-- A number becomes imaginary again by the same mark. -/
theorem numberToken_again {start : Nat} {plain : TokenKind} {value : Number.Binary}
    {r r' : Rest} {t : Token} (h : numberToken start plain value r = (t, r')) :
    ∃ w, r.text = w ++ r'.text ∧ ∀ u start' offset, Rejoins r'.text u → ∃ t' place,
      numberToken start' plain value ⟨w ++ u, offset⟩ = (t', ⟨u, place⟩) ∧ t'.kind = t.kind := by
  unfold numberToken at h
  split at h
  · rename_i hmark
    obtain ⟨rfl, rfl⟩ := Prod.mk.inj h
    obtain ⟨c, cs, hcs⟩ : ∃ c cs, r.text = c :: cs := by
      cases hr : r.text with
      | nil => simp [hr] at hmark
      | cons c cs => exact ⟨c, cs, rfl⟩
    refine ⟨[c], by simp [Rest.skip, hcs], fun u start' offset _ => ?_⟩
    have hc : isImaginaryMark c = true := by simpa [hcs] using hmark
    refine ⟨(numberToken start' plain value ⟨[c] ++ u, offset⟩).1, offset + 1, ?_, ?_⟩
    · simp [numberToken, hc, Rest.skip]
    · simp [numberToken, hc]
  · rename_i hmark
    obtain ⟨rfl, rfl⟩ := Prod.mk.inj h
    refine ⟨[], rfl, fun u start' offset hu => ?_⟩
    have hno : u.head?.any isImaginaryMark = false :=
      hu.fails (separator_all (by decide)) (by simpa using hmark)
    refine ⟨(numberToken start' plain value ⟨u, offset⟩).1, offset, ?_, ?_⟩
    · simp [numberToken, hno]
    · simp [numberToken, hno]

theorem digitRun_le (isDigit : Char → Bool) (t : Text) : (digitRun isDigit t).2 ≤ t.length := by
  induction t with
  | nil => exact Nat.le_refl 0
  | cons c cs ih =>
    unfold digitRun
    split
    · simpa using ih
    · split
      · simpa using ih
      · exact Nat.zero_le _

theorem digitRun_length (isDigit : Char → Bool) (t : Text) :
    (t.take (digitRun isDigit t).2).length = (digitRun isDigit t).2 :=
  List.length_take_of_le (digitRun_le isDigit t)

/-- What follows a run of digits. -/
theorem drop_run (isDigit : Char → Bool) (t u : Text) :
    (t.take (digitRun isDigit t).2 ++ u).drop (digitRun isDigit t).2 = u :=
  List.drop_left' (digitRun_length isDigit t)

/-- A number with a base mark is read again, its digits up to the same place. -/
theorem again_readBased {base : Nat} (hb : base ≤ 16) {mark : Char} {cs : Text} {offset : Nat}
    {t : Token} {r' : Rest} (h : readBased base ⟨'0' :: mark :: cs, offset⟩ = .ok (t, r')) :
    ∃ w, cs = w ++ r'.text ∧ ∀ u offset', Rejoins r'.text u → ∃ t' place,
      readBased base ⟨'0' :: mark :: (w ++ u), offset'⟩ = .ok (t', ⟨u, place⟩) ∧
        t'.kind = t.kind := by
  unfold readBased at h
  simp only [List.drop_succ_cons, List.drop_zero] at h
  split at h
  · cases h
  · rename_i hne
    obtain ⟨rfl, rfl⟩ := Prod.mk.inj (Except.ok.inj h)
    refine ⟨cs.take (digitRun (isDigitIn base) cs).2, by simp [Rest.skip], fun u offset' hu => ?_⟩
    have hseparator (c : Char) (hc : isSeparator c = true) : isDigitIn base c = false :=
      isDigitIn_separator hb hc
    have hrun := digitRun_again hseparator cs (u := u) (by simpa [Rest.skip] using hu)
    refine ⟨⟨.int (valueIn base (digitRun (isDigitIn base) cs).1), offset',
      offset' + ((digitRun (isDigitIn base) cs).2 + 2)⟩,
      offset' + ((digitRun (isDigitIn base) cs).2 + 2), ?_, rfl⟩
    simp [readBased, hrun, hne, Rest.skip, drop_run]

/-- An exponent is read again with the same value where what follows it rejoins. -/
theorem again_readExponent {r : Rest} {e : Int} {r' : Rest} (h : readExponent r = .ok (some e, r')) :
    ∃ w, r.text = w ++ r'.text ∧ (r.text.head?.any isExponentMark = true → w ≠ []) ∧
      ∀ u offset, Rejoins r'.text u → ∃ place,
        readExponent ⟨w ++ u, offset⟩ = .ok (some e, ⟨u, place⟩) := by
  obtain ⟨t, offset⟩ := r
  cases t with
  | nil =>
    obtain ⟨he, rfl⟩ := Prod.mk.inj (Except.ok.inj h)
    obtain rfl := Option.some.inj he
    refine ⟨[], rfl, fun h => by simp at h, fun u offset' hu => ⟨offset', ?_⟩⟩
    cases u with
    | nil => rfl
    | cons c u =>
      have hmark : isExponentMark c = false := separator_all (by decide) c hu.nil_cons
      simp [readExponent, hmark]
  | cons m rest =>
    unfold readExponent at h
    simp only [Rest.skip, List.drop_succ_cons, List.drop_zero] at h
    split at h
    · rename_i hmark
      obtain ⟨he, rfl⟩ := Prod.mk.inj (Except.ok.inj h)
      obtain rfl := Option.some.inj he
      refine ⟨[], rfl, fun h => absurd h (by simpa using hmark), fun u offset' hu => ⟨offset', ?_⟩⟩
      have hno : u.head?.any isExponentMark = false :=
        hu.fails (separator_all (by decide)) (by simpa using hmark)
      cases u with
      | nil => rfl
      | cons c u =>
        have hc : isExponentMark c = false := by simpa using hno
        simp [readExponent, hc]
    · rename_i hmark
      split at h
      · cases h
      · rename_i hunder
        cases rest with
        | nil => cases h
        | cons s rest =>
          simp only at h
          have hs : s ≠ '_' := by simpa using hunder
          have hnarrow {t u : Text} (hu : Rejoins (t.drop (digitRun Char.isDigit t).2) u) :=
            digitRun_again (fun c => isDigit_separator) t hu
          split at h
          · rename_i hsign
            split at h
            · cases h
            · rename_i hnext
              obtain ⟨he, rfl⟩ := Prod.mk.inj (Except.ok.inj h)
              refine ⟨m :: s :: rest.take (digitRun Char.isDigit rest).2, by simp, fun _ => by simp,
                fun u offset' hu => ?_⟩
              refine ⟨offset' + 1 + ((digitRun Char.isDigit rest).2 + 1), ?_⟩
              have hu' : Rejoins (rest.drop (digitRun Char.isDigit rest).2) u := by simpa using hu
              have hnext' := (hu'.append (rest.take (digitRun Char.isDigit rest).2)).head_ne
                (c := '_') rfl (by rwa [List.take_append_drop])
              unfold readExponent
              simp only [List.cons_append, Rest.skip, List.drop_succ_cons, List.drop_zero]
              rw [if_neg hmark, if_neg (by simpa using hs), if_pos hsign, if_neg hnext', hnarrow hu', he,
                drop_run]
          · rename_i hsign
            obtain ⟨he, rfl⟩ := Prod.mk.inj (Except.ok.inj h)
            refine ⟨m :: (s :: rest).take (digitRun Char.isDigit (s :: rest)).2, by simp,
              fun _ => by simp, fun u offset' hu => ?_⟩
            refine ⟨offset' + 1 + (digitRun Char.isDigit (s :: rest)).2, ?_⟩
            have hdigit : s.isDigit = true := by
              by_contra hno
              rw [digitRun_none (by simpa using hno) hs rest] at he
              cases he
            have hrun := hnarrow (t := s :: rest) (u := u) hu
            have hdrop := drop_run Char.isDigit (s :: rest) u
            obtain ⟨k, hk⟩ : ∃ k, (digitRun Char.isDigit (s :: rest)).2 = k + 1 :=
              ⟨_, by rw [digitRun, if_pos hdigit]⟩
            rw [hk, List.take_succ_cons, List.cons_append] at hrun hdrop
            unfold readExponent
            simp only [hk, List.take_succ_cons, List.cons_append, Rest.skip, List.drop_succ_cons,
              List.drop_zero]
            rw [if_neg hmark, if_neg (by simpa using hs), if_neg hsign, hrun, he, hk, hdrop]

/-- An exponent mark before an exponent that can be read is followed by its digits. -/
theorem atExponent_of_read {t : Text} {offset : Nat} {e : Int} {r' : Rest}
    (h : readExponent ⟨t, offset⟩ = .ok (some e, r')) (hmark : t.head?.any isExponentMark = true) :
    atExponent t = true := by
  cases t with
  | nil => cases hmark
  | cons m rest =>
    have hm : isExponentMark m = true := by simpa using hmark
    unfold readExponent at h
    simp only [Rest.skip, List.drop_succ_cons, List.drop_zero, hm, Bool.not_true] at h
    rw [if_neg (by simp)] at h
    split at h
    · cases h
    · rename_i hunder
      cases rest with
      | nil => cases h
      | cons s rest =>
        have hs : s ≠ '_' := by simpa using hunder
        simp only at h
        simp only [atExponent, hm, Bool.true_and]
        split at h
        · rename_i hsign
          split at h
          · cases h
          · rename_i hnext
            have hdigit : rest.head?.any Char.isDigit = true := by
              by_contra hno
              have hrun : (digitRun Char.isDigit rest).1 = [] := by
                cases rest with
                | nil => rfl
                | cons d ds => rw [digitRun_none (by simpa using hno) (by simpa using hnext) ds]
              rw [hrun] at h
              cases h
            simp [hsign, hdigit]
        · have hdigit : s.isDigit = true := by
            by_contra hno
            rw [digitRun_none (by simpa using hno) hs rest] at h
            cases h
          simp [hdigit]

/-- The number of some digits, some places and an exponent, and the mark after it. -/
def scaled (start : Nat) (whole places : Text) (r : Rest) : Except Fault (Token × Rest) := do
  let (exponent, after) ← readExponent r
  match exponent with
  | none => throw ⟨.badFraction, after.offset⟩
  | some e =>
    let value := Number.double.ofDecimal false (valueIn 10 (whole ++ places)) (e - places.length)
    return numberToken start (.float value) value after

section Decimal

variable {t : Text} {offset n : Nat} {whole : Text} (ht : digitRun Char.isDigit t = (whole, n))

include ht

theorem readDecimal_places {s places : Text} {m : Nat} (hs : t.drop n = '.' :: s)
    (hp : digitRun Char.isDigit s = (places, m)) (hunder : s.head? ≠ some '_') :
    readDecimal ⟨t, offset⟩ =
      scaled offset whole places ⟨s.drop m, offset + n + (m + 1)⟩ := by
  simp [readDecimal, Rest.skip, ht, hs, hp, hunder]
  rfl

theorem readDecimal_stray {s : Text} (hs : t.drop n = '.' :: s) (hunder : s.head? = some '_') :
    readDecimal ⟨t, offset⟩ = .error ⟨.strayUnderscore, offset + n⟩ := by
  simp [readDecimal, Rest.skip, ht, hs, hunder, throw, throwThe, MonadExceptOf.throw, bind,
    Except.bind]

theorem readDecimal_exponent (hpoint : (t.drop n).head? ≠ some '.')
    (hmark : atExponent (t.drop n) = true) :
    readDecimal ⟨t, offset⟩ = scaled offset whole [] ⟨t.drop n, offset + n⟩ := by
  simp [-List.head?_drop, readDecimal, Rest.skip, ht, hpoint, hmark]
  refine bind_congr fun found => ?_
  obtain ⟨_ | e, after⟩ := found
  · rfl
  · have hplaces : e - (([] : Text).length : Int) = e := Int.sub_zero e
    simp only [List.append_nil, hplaces]

theorem readDecimal_imaginary (hpoint : (t.drop n).head? ≠ some '.')
    (hmark : atExponent (t.drop n) = false) (hj : (t.drop n).head?.any isImaginaryMark = true) :
    readDecimal ⟨t, offset⟩ = .ok (numberToken offset (.int (valueIn 10 whole))
      (Number.double.ofDecimal false (valueIn 10 whole) 0) ⟨t.drop n, offset + n⟩) := by
  simp [-List.head?_drop, readDecimal, Rest.skip, ht, hpoint, hmark, hj, pure, Except.pure]

theorem readDecimal_zeros (hpoint : (t.drop n).head? ≠ some '.')
    (hmark : atExponent (t.drop n) = false) (hj : (t.drop n).head?.any isImaginaryMark = false)
    (hz : t.head? = some '0' ∧ valueIn 10 whole ≠ 0) :
    readDecimal ⟨t, offset⟩ = .error ⟨.leadingZeros, offset + n⟩ := by
  simp [-List.head?_drop, readDecimal, Rest.skip, ht, hpoint, hmark, hj, hz, throw, throwThe,
    MonadExceptOf.throw]

theorem readDecimal_whole (hpoint : (t.drop n).head? ≠ some '.')
    (hmark : atExponent (t.drop n) = false) (hj : (t.drop n).head?.any isImaginaryMark = false)
    (hz : ¬(t.head? = some '0' ∧ valueIn 10 whole ≠ 0)) :
    readDecimal ⟨t, offset⟩ =
      .ok (⟨.int (valueIn 10 whole), offset, offset + n⟩, ⟨t.drop n, offset + n⟩) := by
  simp [-List.head?_drop, readDecimal, Rest.skip, ht, hpoint, hmark, hj, hz, pure, Except.pure]

end Decimal

theorem again_scaled {start : Nat} {whole places : Text} {r r' : Rest} {t : Token}
    (h : scaled start whole places r = .ok (t, r')) :
    ∃ w, r.text = w ++ r'.text ∧
      (r.text.head?.any isExponentMark = true → w ≠ [] ∧ atExponent r.text = true) ∧
      ∀ u start' offset, Rejoins r'.text u → ∃ t' place,
        scaled start' whole places ⟨w ++ u, offset⟩ = .ok (t', ⟨u, place⟩) ∧ t'.kind = t.kind := by
  obtain ⟨⟨exponent, after⟩, hexponent, h⟩ := bind_eq_ok_iff.mp h
  cases exponent with
  | none => cases h
  | some e =>
    obtain ⟨w, hw, hne, hagain⟩ := again_readExponent hexponent
    obtain ⟨w', hw', hagain'⟩ := numberToken_again (Except.ok.inj h)
    refine ⟨w ++ w', by rw [hw, hw', List.append_assoc], fun hmark => ⟨?_, ?_⟩,
      fun u start' offset hu => ?_⟩
    · simpa using fun hnil => absurd hnil (hne hmark)
    · exact atExponent_of_read hexponent hmark
    · obtain ⟨place, hread⟩ := hagain (w' ++ u) offset (hw' ▸ hu.append w')
      obtain ⟨t', place', htoken, hkind⟩ := hagain' u start' place hu
      refine ⟨t', place', ?_, hkind⟩
      rw [List.append_assoc, scaled, hread]
      exact congrArg Except.ok htoken

/-- A run of decimal digits, and what follows it. -/
theorem decimalRun_split (t : Text) : ∃ w rest whole, t = w ++ rest ∧
    ∀ u, Rejoins rest u → digitRun Char.isDigit (w ++ u) = (whole, w.length) := by
  refine ⟨t.take (digitRun Char.isDigit t).2, t.drop (digitRun Char.isDigit t).2,
    (digitRun Char.isDigit t).1, (List.take_append_drop _ t).symm, fun u hu => ?_⟩
  rw [digitRun_again (fun c => isDigit_separator) t hu, digitRun_length]

theorem head_isExponentMark {t : Text} (h : atExponent t = true) :
    t.head?.any isExponentMark = true := by
  match t, h with
  | m :: s :: rest, h =>
    simp only [atExponent, Bool.and_eq_true] at h
    simpa using h.1

/-- A decimal is read again where what follows it rejoins. -/
theorem again_readDecimal (r : Rest) : ReadAgain Token.kind readDecimal r := by
  obtain ⟨t, offset⟩ := r
  intro token r' h
  obtain ⟨w, rest, whole, rfl, hw⟩ := decimalRun_split t
  have hwhole := hw rest (.same rest)
  by_cases hpoint : rest.head? = some '.'
  · obtain ⟨s, rfl⟩ : ∃ s, rest = '.' :: s := by
      cases rest with
      | nil => simp at hpoint
      | cons c s => exact ⟨s, by simpa using hpoint⟩
    by_cases hunder : s.head? = some '_'
    · rw [readDecimal_stray hwhole List.drop_left hunder] at h
      cases h
    obtain ⟨v, rest, places, rfl, hv⟩ := decimalRun_split s
    rw [readDecimal_places hwhole List.drop_left (hv rest (.same rest)) hunder, List.drop_left] at h
    obtain ⟨x, rfl, -, hagain⟩ := again_scaled h
    refine ⟨w ++ '.' :: (v ++ x), by simp, fun u offset' hu => ?_⟩
    obtain ⟨t', place, hread, hkind⟩ := hagain u offset' _ hu
    have hx := hu.append x
    refine ⟨t', place, ?_, hkind⟩
    rw [List.append_assoc, List.cons_append, List.append_assoc,
      readDecimal_places (hw _ (.cons '.' (hx.append v))) List.drop_left (hv _ hx) ?_,
      List.drop_left, hread]
    exact (hx.append v).head_ne rfl hunder
  · by_cases hmark : atExponent rest = true
    · rw [readDecimal_exponent hwhole (by rwa [List.drop_left]) (by rwa [List.drop_left]),
        List.drop_left] at h
      obtain ⟨x, hx, hmarked, hagain⟩ := again_scaled h
      obtain ⟨hne, -⟩ := hmarked (head_isExponentMark hmark)
      obtain rfl : rest = x ++ r'.text := hx
      obtain ⟨m, x, rfl⟩ := List.exists_cons_of_ne_nil hne
      have hm : isExponentMark m = true := by simpa using head_isExponentMark hmark
      refine ⟨w ++ m :: x, by simp, fun u offset' hu => ?_⟩
      obtain ⟨t', place, hread, hkind⟩ := hagain u offset' (offset' + w.length) hu
      -- The mark is followed by digits again, since the exponent is read again.
      obtain ⟨_, -, hmarked', -⟩ := again_scaled hread
      obtain ⟨-, hat⟩ := hmarked' (by simpa using hm)
      refine ⟨t', place, ?_, hkind⟩
      rw [List.append_assoc, readDecimal_exponent (hw _ (hu.append (m :: x))) (by simpa using hpoint)
        (by rwa [List.drop_left]), List.drop_left, hread]
    · have hplain {u : Text} (hu : Rejoins rest u) : u.head? ≠ some '.' ∧ atExponent u = false :=
        ⟨hu.head_ne rfl hpoint, hu.atExponent (by simpa using hmark)⟩
      by_cases hj : rest.head?.any isImaginaryMark = true
      · rw [readDecimal_imaginary hwhole (by rwa [List.drop_left]) (by simpa using hmark)
          (by rwa [List.drop_left]), List.drop_left] at h
        obtain ⟨c, rest, rfl⟩ : ∃ c s, rest = c :: s := by
          cases rest with
          | nil => simp at hj
          | cons c s => exact ⟨c, s, rfl⟩
        have hc : isImaginaryMark c = true := by simpa using hj
        simp only [numberToken, List.head?_cons, Option.any_some, hc, if_true] at h
        obtain ⟨rfl, rfl⟩ := Prod.mk.inj (Except.ok.inj h)
        refine ⟨w ++ [c], by simp [Rest.skip], fun u offset' hu => ?_⟩
        have hu' : Rejoins (c :: rest) (c :: u) := .cons c hu
        refine ⟨⟨.imaginary (Number.double.ofDecimal false (valueIn 10 whole) 0), offset',
          offset' + w.length + 1⟩, offset' + w.length + 1, ?_, rfl⟩
        rw [List.append_assoc, List.singleton_append,
          readDecimal_imaginary (hw _ hu') (by simpa using (hplain hu').1)
            (by simpa using (hplain hu').2) (by simpa using hc), List.drop_left]
        simp only [numberToken, List.head?_cons, Option.any_some, hc, if_true]
        rfl
      · by_cases hz : (w ++ rest).head? = some '0' ∧ valueIn 10 whole ≠ 0
        · rw [readDecimal_zeros hwhole (by rwa [List.drop_left]) (by simpa using hmark)
            (by simpa using hj) hz] at h
          cases h
        · rw [readDecimal_whole hwhole (by rwa [List.drop_left]) (by simpa using hmark)
            (by simpa using hj) hz, List.drop_left] at h
          obtain ⟨rfl, rfl⟩ := Prod.mk.inj (Except.ok.inj h)
          refine ⟨w, rfl, fun u offset' hu => ⟨⟨.int (valueIn 10 whole), offset',
            offset' + w.length⟩, offset' + w.length, ?_, rfl⟩⟩
          have hj' : u.head?.any isImaginaryMark = false :=
            hu.fails (separator_all (by decide)) (by simpa using hj)
          have hz' : ¬((w ++ u).head? = some '0' ∧ valueIn 10 whole ≠ 0) := by
            cases w with
            | nil =>
              have hnone : ([], 0) = (whole, 0) := hw [','] (.cut rfl)
              obtain ⟨rfl, -⟩ := Prod.mk.inj hnone
              exact fun h => h.2 rfl
            | cons d w => simpa using hz
          rw [readDecimal_whole (hw u hu) (by simpa using (hplain hu).1)
            (by simpa using (hplain hu).2) (by simpa using hj') hz', List.drop_left]

theorem baseOf_separator {c : Char} (hc : isSeparator c = true) : baseOf? c = none := by
  rcases isSeparator_eq hc with rfl | rfl | rfl | rfl <;> rfl

theorem readNumber_decimal {t : Text} {offset : Nat}
    (h : ∀ mark s, t = '0' :: mark :: s → baseOf? mark = none) :
    readNumber ⟨t, offset⟩ = readDecimal ⟨t, offset⟩ := by
  unfold readNumber
  split
  · rename_i mark s heq
    rw [h mark s heq]
  · rfl

/-- A number that has no base mark gets none. -/
theorem Rejoins.decimal {u u' : Text} (h : Rejoins u u')
    (hno : ∀ mark s, u = '0' :: mark :: s → baseOf? mark = none) (mark : Char) (s : Text)
    (heq : u' = '0' :: mark :: s) : baseOf? mark = none := by
  subst heq
  cases h with
  | same => exact hno mark s rfl
  | cut separator => cases separator
  | @cons v _ _ later =>
    cases v with
    | nil => exact baseOf_separator later.nil_cons
    | cons c v =>
      rcases later.of_cons with hc | ⟨rfl, -⟩
      · exact baseOf_separator hc
      · exact hno _ v rfl

/-- A point before a digit is read with it. -/
theorem readNumber_point {d : Char} {s : Text} {offset : Nat} {t : Token} {r' : Rest}
    (hd : d.isDigit = true) (h : readNumber ⟨'.' :: d :: s, offset⟩ = .ok (t, r')) :
    r'.text.length ≤ s.length := by
  have hwhole : digitRun Char.isDigit ('.' :: d :: s) = ([], 0) := digitRun_none rfl (by decide) _
  have hplaces : digitRun Char.isDigit (d :: s) =
      (d :: (digitRun Char.isDigit s).1, (digitRun Char.isDigit s).2 + 1) := by
    rw [digitRun, if_pos hd]
  have hunder : (d :: s).head? ≠ some '_' := by
    rintro heq
    obtain rfl : d = '_' := by simpa using heq
    cases hd
  rw [readNumber_decimal (by simp), readDecimal_places hwhole rfl hplaces hunder] at h
  obtain ⟨w, hw, -⟩ := again_scaled h
  have hlen := congrArg List.length hw
  simp only [List.drop_succ_cons, List.length_drop, List.length_append] at hlen
  omega

theorem again_readNumber (r : Rest) : ReadAgain Token.kind readNumber r := by
  obtain ⟨t, offset⟩ := r
  by_cases hbased : ∃ mark s base, t = '0' :: mark :: s ∧ baseOf? mark = some base
  · obtain ⟨mark, s, base, rfl, hbase⟩ := hbased
    have hread {s : Text} {offset : Nat} :
        readNumber ⟨'0' :: mark :: s, offset⟩ = readBased base ⟨'0' :: mark :: s, offset⟩ := by
      simp [readNumber, hbase]
    intro token r' h
    rw [hread] at h
    obtain ⟨w, rfl, hagain⟩ := again_readBased (baseOf_eq hbase).1 h
    refine ⟨'0' :: mark :: w, rfl, fun u offset' hu => ?_⟩
    simpa only [List.cons_append, hread] using hagain u offset' hu
  · have hno (mark : Char) (s : Text) (heq : t = '0' :: mark :: s) : baseOf? mark = none := by
      by_contra hsome
      obtain ⟨base, hbase⟩ := Option.ne_none_iff_exists'.mp hsome
      exact hbased ⟨mark, s, base, heq, hbase⟩
    intro token r' h
    rw [readNumber_decimal hno] at h
    obtain ⟨w, rfl, hagain⟩ := again_readDecimal _ token r' h
    refine ⟨w, rfl, fun u offset' hu => ?_⟩
    rw [readNumber_decimal (hu.append w |>.decimal hno)]
    exact hagain u offset' hu

end Pagewright.Syntax
