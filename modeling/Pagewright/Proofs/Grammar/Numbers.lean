import Pagewright.Proofs.Grammar.Placing

namespace Pagewright.Syntax

open Text Number

theorem isWritten_foreign {k : TokenKind} {w : Text} (hw : k.IsWritten w)
    (hk : k.isForeign = true) : ∃ c ∈ w, isForeign c = true := by
  cases k with
  | keyword word =>
    subst hw
    exact List.any_eq_true.mp hk
  | operator symbol =>
    subst hw
    exact List.any_eq_true.mp hk
  | imaginary x => exact hw
  | literal content => exact hw
  | _ => cases hk

/-- A word that no number has leaves its character in the text. -/
theorem Words.foreign {w : Text} {ts : List Token} {t : Token} (h : Words w ts) (ht : t ∈ ts)
    (hforeign : t.kind.isForeign = true) : ∃ c ∈ w, isForeign c = true := by
  induction h with
  | one nonempty written =>
    obtain rfl := List.mem_singleton.mp ht
    exact isWritten_foreign written hforeign
  | more nonempty written isGap later ih =>
    rcases List.mem_cons.mp ht with rfl | ht
    · obtain ⟨c, hc, hf⟩ := isWritten_foreign written hforeign
      exact ⟨c, by simp [hc], hf⟩
    · obtain ⟨c, hc, hf⟩ := ih ht
      exact ⟨c, by simp [hc], hf⟩

/-- A whole number is read as it is written. -/
theorem Words.int {w : Text} {t : Token} {n : Nat} {v : Json} (h : Words w [t])
    (ht : t.kind = .int n) (hv : json? w = some v) : ofWhole? n = some v := by
  cases h with
  | one nonempty written =>
    rw [ht] at written
    rcases written with ⟨hne, hdigits, hn⟩ | hforeign
    · have hsign : readSign (cleaned w) = (false, cleaned w) := by
        obtain ⟨c, cs, hc⟩ := List.exists_cons_of_ne_nil hne
        rw [hc]
        exact readSign_digit (hdigits c (by simp [hc]))
      rw [json?_of_sign hsign, if_pos (isWhole_iff.mpr ⟨hne, hdigits⟩), hn] at hv
      exact hv
    · rw [json?_foreign hforeign] at hv
      cases hv
  | more _ _ _ later => cases later

theorem constant?_int {k : TokenKind} {n : Nat}
    (h : Expression.constant? k = some (.int n)) : k = .int n := by
  unfold Expression.constant? at h
  split at h
  all_goals cases h
  rfl

/-- So it is whatever else it may have been read from. -/
theorem Words.whole {w : Text} {ts : List Token} {s : Span} {n : Nat} {v : Json} (h : Words w ts)
    (hshape : Shape ts (.constant s (.int n))) (hv : json? w = some v) : ofWhole? n = some v := by
  cases hshape with
  | reference isReference => cases isReference
  | foreign mem isForeign =>
    rw [json?_foreign (h.foreign mem isForeign)] at hv
    cases hv
  | constant kind => exact h.int (constant?_int kind) hv

def UnaryOp.negates? : UnaryOp → Option Bool
  | .negative => some true
  | .positive => some false
  | _ => none

/-- A number behind a sign: a whole one or a double. -/
inductive Signed (negative : Bool) : Expr → Json → Prop where
  | int {s : Span} {n : Nat} {v : Json}
    (value : ofWhole? (if negative then -(n : Int) else n) = some v) :
    Signed negative (.constant s (.int n)) v
  | float {s : Span} {x : Binary} (isFinite : x.finite? = some x) :
    Signed negative (.constant s (.float x)) (.real (if negative then x.negate else x))

theorem finite?_negate (x : Binary) : x.negate.finite? = x.finite?.map Binary.negate := by
  cases x <;> rfl

theorem finite?_eq_some {x y : Binary} (h : x.finite? = some y) : y = x ∧ x.finite? = some x := by
  cases x with
  | finite n m s => exact ⟨(Option.some.inj h).symm, rfl⟩
  | infinite n => cases h

/-- The double of some digits behind a sign is the double of the digits with the sign. -/
theorem signed_double {negative : Bool} {p : Nat × Int} {s : Span} {v : Json}
    (h : ((some p).bind fun p => (double.ofDecimal negative p.1 p.2).finite?).map Json.real =
      some v) : Signed negative (.constant s (.float (double.ofDecimal false p.1 p.2))) v := by
  obtain ⟨y, hy, rfl⟩ := Option.map_eq_some_iff.mp h
  change (double.ofDecimal negative p.1 p.2).finite? = some y at hy
  cases negative with
  | false =>
    obtain ⟨rfl, hfinite⟩ := finite?_eq_some hy
    exact .float hfinite
  | true =>
    have hnegate := Format.ofDecimal_negate double false p.1 p.2
    simp only [Bool.not_false] at hnegate
    rw [hnegate, finite?_negate] at hy
    obtain ⟨x, hx, rfl⟩ := Option.map_eq_some_iff.mp hy
    obtain ⟨rfl, hfinite⟩ := finite?_eq_some hx
    exact .float hfinite

/-- What is read behind a sign, unless it is a name or an attribute: only a number that is
written there. -/
theorem Words.signed {w rest : Text} {ts : List Token} {e : Expr} {v : Json} {negative : Bool}
    (h : Words rest ts) (hw : ∀ c ∈ rest, c ∈ w) (hshape : Shape ts e)
    (hsign : readSign (cleaned w) = (negative, cleaned rest)) (he : e.isReference = false)
    (hv : json? w = some v) : Signed negative e v := by
  -- Whatever the words are besides a number, nothing is read.
  have hforeign (hc : ∃ c ∈ rest, isForeign c = true) : Signed negative e v := by
    obtain ⟨c, hc, hf⟩ := hc
    rw [json?_foreign ⟨c, hw c hc, hf⟩] at hv
    cases hv
  have hdoubled (hu : (∃ u, cleaned rest = '-' :: u) ∨ (∃ u, cleaned rest = '+' :: u) ∨
      ∃ u, cleaned rest = '.' :: '.' :: u) : Signed negative e v := by
    rw [json?_doubled hsign hu] at hv
    cases hv
  cases hshape with
  | @constant t s c kind =>
    cases h with
    | more _ _ _ later => cases later
    | one nonempty written =>
      obtain ⟨k, start, stop⟩ := t
      cases k with
      | int n =>
        obtain rfl := Option.some.inj kind
        rcases written with ⟨hne, hdigits, hn⟩ | hc
        · rw [json?_of_sign hsign, if_pos (isWhole_iff.mpr ⟨hne, hdigits⟩), hn] at hv
          exact .int hv
        · exact hforeign hc
      | float x =>
        obtain rfl := Option.some.inj kind
        obtain ⟨⟨d, hd, hdigit⟩, p, hp, rfl⟩ := written
        have hpart : isWhole (cleaned rest) = false := by
          rw [← Bool.not_eq_true, isWhole_iff]
          intro hwhole
          rw [hwhole.2 d hd] at hdigit
          cases hdigit
        rw [json?_of_sign hsign, hpart, if_neg Bool.false_ne_true, hp] at hv
        exact signed_double hv
      | imaginary x => exact hforeign written
      | keyword word =>
        cases word with
        | noneWord | trueWord | falseWord => exact hforeign (isWritten_foreign written rfl)
        | _ => cases kind
      | operator symbol =>
        cases symbol with
        | threeDots =>
          subst written
          exact hdoubled (.inr (.inr ⟨_, rfl⟩))
        | _ => cases kind
      | _ => cases kind
  | reference isReference => exact absurd isReference (by simp [he])
  | @signed t ts s op e sign operand =>
    obtain ⟨w', rest', rfl, hwritten⟩ := h.first
    cases hkind : t.kind with
    | operator symbol =>
      rw [hkind] at sign hwritten
      subst hwritten
      cases symbol with
      | minus => exact hdoubled (.inl ⟨cleaned rest', rfl⟩)
      | plus => exact hdoubled (.inr (.inl ⟨cleaned rest', rfl⟩))
      | tilde => exact hforeign ⟨'~', List.mem_cons_self, by decide⟩
      | _ => cases sign
    | _ =>
      rw [hkind] at sign
      cases sign
  | foreign mem isForeign => exact hforeign (h.foreign mem isForeign)

/-- A sign before anything but a name or an attribute is read only before a number. -/
theorem Words.unary {w : Text} {ts : List Token} {s : Span} {op : UnaryOp} {e : Expr} {v : Json}
    (h : Words w ts) (hshape : Shape ts (.unary s op e)) (he : e.isReference = false)
    (hv : json? w = some v) : ∃ negative, op.negates? = some negative ∧ Signed negative e v := by
  have hforeign (hc : ∃ c ∈ w, isForeign c = true) :
      ∃ negative, op.negates? = some negative ∧ Signed negative e v := by
    rw [json?_foreign hc] at hv
    cases hv
  cases hshape with
  | reference isReference => cases isReference
  | foreign mem isForeign => exact hforeign (h.foreign mem isForeign)
  | @signed t ts _ _ _ sign operand =>
    cases h with
    | one => cases operand with
      | reference isReference => exact absurd isReference (by simp [he])
      | foreign mem => cases mem
    | @more w gap rest _ _ _ written isGap later =>
      have hrest : ∀ c ∈ rest, c ∈ w ++ gap ++ rest := fun c hc => List.mem_append_right _ hc
      rcases isGap.blank_or_foreign with hblank | ⟨c, hc, hf⟩
      · have hclean : cleaned (w ++ gap ++ rest) = cleaned w ++ cleaned rest := by
          rw [cleaned_append, cleaned_append, cleaned_blank hblank, List.append_nil]
        cases hkind : t.kind with
        | operator symbol =>
          rw [hkind] at sign written
          subst written
          cases symbol with
          | minus =>
            obtain rfl := Option.some.inj sign
            refine ⟨true, rfl, later.signed hrest operand ?_ he hv⟩
            rw [hclean]
            exact readSign_minus _
          | plus =>
            obtain rfl := Option.some.inj sign
            refine ⟨false, rfl, later.signed hrest operand ?_ he hv⟩
            rw [hclean]
            exact readSign_plus _
          | tilde => exact hforeign ⟨'~', List.mem_cons_self, by decide⟩
          | _ => cases sign
        | _ =>
          rw [hkind] at sign
          cases sign
      · exact hforeign ⟨c, by simp [hc], hf⟩

end Pagewright.Syntax
