import Pagewright.Proofs.Props

namespace Pagewright.Binding

open Syntax Number

/-- A whole number in decimal: its digits, with underscores anywhere between them. -/
structure IsDecimal (w : Text) (n : Nat) : Prop where
  digits : ∀ c ∈ w, c.isDigit = true ∨ c = '_'
  nonempty : ∃ c ∈ w, c.isDigit = true
  value : ofDigits (w.filter (· ≠ '_')) = n

instance (w : Text) (n : Nat) : Decidable (IsDecimal w n) :=
  decidable_of_iff (w.all (fun c => c.isDigit || c = '_') = true ∧ w.any Char.isDigit = true ∧
    ofDigits (w.filter (· ≠ '_')) = n)
    ⟨fun ⟨hdigits, hany, hvalue⟩ => ⟨by simpa using hdigits, by simpa using hany, hvalue⟩,
      fun h => ⟨by simpa using h.digits, by simpa using h.nonempty, h.value⟩⟩

/-- A sign, blanks behind it, and a whole number in decimal. -/
def IsSigned (sign : Char) (w : Text) (n : Nat) : Prop :=
  ∃ gap digits, w = sign :: (gap ++ digits) ∧ (∀ c ∈ gap, Text.isBlank c = true) ∧
    IsDecimal digits n

mutual

/-- A literal of a file and the value that it stands for. -/
inductive Exact (source : Source) : Expr → Json → Prop where
  | none {s : Span} : Exact source (.constant s .none) .null
  | bool {s : Span} {b : Bool} : Exact source (.constant s (.bool b)) (.bool b)
  | text {s : Span} {t : Text} : Exact source (.constant s (.text t)) (.string t)
  | whole {s : Span} {n : Nat} (written : IsDecimal (source.slice s) n) (fits : n < Nat.pow 2 64) :
    Exact source (.constant s (.int n)) (.int n)
  | plus {s s' : Span} {n : Nat} (written : IsSigned '+' (source.slice s) n)
    (fits : n < Nat.pow 2 64) : Exact source (.unary s .positive (.constant s' (.int n))) (.int n)
  | minus {s s' : Span} {n : Nat} (written : IsSigned '-' (source.slice s) n)
    (fits : n ≤ Nat.pow 2 63) : Exact source (.unary s .negative (.constant s' (.int n))) (.int (-n))
  | list {s : Span} {es : List Expr} {vs : List Json} (items : ExactAll source es vs) :
    Exact source (.list s es) (.array vs)
  | tuple {s : Span} {es : List Expr} {vs : List Json} (items : ExactAll source es vs) :
    Exact source (.tuple s es) (.array vs)
  | dict {s : Span} {es : List (Option Expr × Expr)} {ps : List (Text × Json)}
    (entries : ExactEntries source es ps) : Exact source (.dict s es) (.object (settled ps))

inductive ExactAll (source : Source) : List Expr → List Json → Prop where
  | nil : ExactAll source [] []
  | cons {e : Expr} {v : Json} {es : List Expr} {vs : List Json} (item : Exact source e v)
    (later : ExactAll source es vs) : ExactAll source (e :: es) (v :: vs)

/-- The entries of a dictionary, each with a constant text as its key. -/
inductive ExactEntries (source : Source) :
    List (Option Expr × Expr) → List (Text × Json) → Prop where
  | nil : ExactEntries source [] []
  | cons {s : Span} {key : Text} {e : Expr} {v : Json} {es : List (Option Expr × Expr)}
    {ps : List (Text × Json)} (value : Exact source e v) (later : ExactEntries source es ps) :
    ExactEntries source ((some (.constant s (.text key)), e) :: es) ((key, v) :: ps)

end

variable {source : Source} {w : Text} {n : Nat}

theorem IsDecimal.cleaned_eq (h : IsDecimal w n) : cleaned w = w.filter (· ≠ '_') := by
  refine List.filter_congr fun c hc => ?_
  rcases h.digits c hc with hdigit | rfl
  · simp [not_blank_digit hdigit]
  · rfl

/-- The underscores are dropped before the digits are read. -/
theorem IsDecimal.isWhole (h : IsDecimal w n) : isWhole (cleaned w) = true := by
  rw [h.cleaned_eq, isWhole_iff]
  constructor
  · obtain ⟨c, hc, hdigit⟩ := h.nonempty
    have hne : c ≠ '_' := by
      rintro rfl
      exact absurd hdigit (by decide)
    exact List.ne_nil_of_mem (List.mem_filter.mpr ⟨hc, by simpa using hne⟩)
  · intro c hc
    obtain ⟨hm, hne⟩ := List.mem_filter.mp hc
    exact (h.digits c hm).resolve_right (by simpa using hne)

/-- Digits behind a sign, or without one, are the whole number that they are the digits of. -/
theorem IsDecimal.json? (h : IsDecimal w n) {t : Text} (negative : Bool)
    (ht : readSign (cleaned t) = (negative, cleaned w)) :
    Number.json? t = ofWhole? (if negative then -(n : Int) else n) := by
  rw [json?_of_sign ht, if_pos h.isWhole, h.cleaned_eq, h.value]

theorem readSign_decimal (h : IsDecimal w n) : readSign (cleaned w) = (false, cleaned w) := by
  obtain ⟨hne, hdigits⟩ := isWhole_iff.mp h.isWhole
  obtain ⟨c, cs, hc⟩ := List.exists_cons_of_ne_nil hne
  rw [hc]
  exact readSign_digit (hdigits c (by simp [hc]))

/-- The blanks behind a sign are dropped. -/
theorem cleaned_signed {sign : Char} {gap : Text} (hs : sign ≠ '_' ∧ Text.isBlank sign = false)
    (hgap : ∀ c ∈ gap, Text.isBlank c = true) : cleaned (sign :: (gap ++ w)) = sign :: cleaned w := by
  have hsign : cleaned [sign] = [sign] := by simp [cleaned, hs]
  rw [← List.singleton_append, cleaned_append, cleaned_append, cleaned_blank hgap, hsign]
  rfl

theorem IsSigned.json?_plus (h : IsSigned '+' w n) : Number.json? w = ofWhole? n := by
  obtain ⟨gap, digits, rfl, hgap, hdigits⟩ := h
  refine hdigits.json? false ?_
  rw [cleaned_signed (by decide) hgap]
  exact readSign_plus _

theorem IsSigned.json?_minus (h : IsSigned '-' w n) : Number.json? w = ofWhole? (-(n : Int)) := by
  obtain ⟨gap, digits, rfl, hgap, hdigits⟩ := h
  refine hdigits.json? true ?_
  rw [cleaned_signed (by decide) hgap]
  exact readSign_minus _

/-- A whole number that fits 64 bits stays as it is. -/
theorem ofWhole?_natural (h : n < Nat.pow 2 64) : ofWhole? (n : Int) = some (.int n) := by
  have he : Json.isExact n = true := decide_eq_true ⟨by omega, by omega⟩
  rw [ofWhole?, if_pos he]

theorem ofWhole?_opposite (h : n ≤ Nat.pow 2 63) : ofWhole? (-(n : Int)) = some (.int (-n)) := by
  have hpos : 0 < Nat.pow 2 64 := by decide
  have he : Json.isExact (-n) = true := decide_eq_true ⟨by omega, by omega⟩
  rw [ofWhole?, if_pos he]

theorem literal_unary {s : Span} {op : UnaryOp} {e : Expr} {v : Json}
    (h : Number.json? (source.slice s) = some v) : literal source (.unary s op e) = .ok v := by
  rw [literal, h]

mutual

/-- Such a literal is carried, whatever its depth and its size. -/
theorem literal_of_exact {e : Expr} {v : Json} (h : Exact source e v) :
    literal source e = .ok v := by
  cases h with
  | none => rw [literal, constantValue]
  | bool => rw [literal, constantValue]
  | text => rw [literal, constantValue]
  | whole written fits =>
    have hv := written.json? false (readSign_decimal written)
    rw [if_neg Bool.false_ne_true, ofWhole?_natural fits] at hv
    rw [literal, constantValue, hv]
  | plus written fits => exact literal_unary (written.json?_plus.trans (ofWhole?_natural fits))
  | minus written fits => exact literal_unary (written.json?_minus.trans (ofWhole?_opposite fits))
  | list items =>
    rw [literal, literals_of_exact items]
    rfl
  | tuple items =>
    rw [literal, literals_of_exact items]
    rfl
  | dict entries =>
    have hentries := literalEntries_of_exact [] entries
    rw [literal, show ([] : List (Text × Json)) = settled [] from rfl, hentries]
    rfl

theorem literals_of_exact {es : List Expr} {vs : List Json} (h : ExactAll source es vs) :
    literals source es = .ok vs := by
  cases h with
  | nil => rfl
  | cons item later =>
    rw [literals, literal_of_exact item, literals_of_exact later]
    rfl

/-- The entries are set one after the other, behind those that were set before. -/
theorem literalEntries_of_exact (before : List (Text × Json)) {es : List (Option Expr × Expr)}
    {ps : List (Text × Json)} (h : ExactEntries source es ps) :
    literalEntries source es (settled before) = .ok (settled (before ++ ps)) := by
  cases h with
  | nil => rw [literalEntries, List.append_nil]
  | @cons s key e v es ps value later =>
    have hlater := literalEntries_of_exact (before ++ [(key, v)]) later
    rw [settled_snoc, List.append_assoc, List.singleton_append] at hlater
    rw [literalEntries, literal_of_exact value]
    exact hlater

end

mutual

/-- What is written for such a literal is the value that it has when the file runs. -/
theorem denotes_of_exact {e : Expr} {v : Json} (h : Exact source e v) : Denotes e v := by
  cases h with
  | none => exact .none
  | bool => exact .bool
  | text => exact .text
  | whole written fits => exact .int (ofWhole?_natural fits)
  | @plus s s' n written fits =>
    have hvalue : Signed false (.constant s' (.int n)) (.int n) := .int (ofWhole?_natural fits)
    exact .signed rfl hvalue
  | @minus s s' n written fits =>
    have hvalue : Signed true (.constant s' (.int n)) (.int (-n)) := .int (ofWhole?_opposite fits)
    exact .signed rfl hvalue
  | list items => exact .list (denoteAll_of_exact items)
  | tuple items => exact .tuple (denoteAll_of_exact items)
  | dict entries => exact .dict (denoteEntries_of_exact entries)

theorem denoteAll_of_exact {es : List Expr} {vs : List Json} (h : ExactAll source es vs) :
    DenoteAll es vs := by
  cases h with
  | nil => exact .nil
  | cons item later => exact .cons (denotes_of_exact item) (denoteAll_of_exact later)

theorem denoteEntries_of_exact {es : List (Option Expr × Expr)} {ps : List (Text × Json)}
    (h : ExactEntries source es ps) : DenoteEntries es ps := by
  cases h with
  | nil => exact .nil
  | cons value later => exact .cons (denotes_of_exact value) (denoteEntries_of_exact later)

end

/-- Every such literal is carried, and with the value that it has: numbers exactly and with their
signs, items in order, and each key in its first place with its last value. -/
theorem literal_exact {e : Expr} {v : Json} (h : Exact source e v) :
    literal source e = .ok v ∧ Denotes e v :=
  ⟨literal_of_exact h, denotes_of_exact h⟩

def bordersText : Text :=
  "\x7b'k': [- 9_223372036854775808], 'l': (None, 18446744073709551615), 'k': +0\x7d"

def borders : Expr :=
  .dict ⟨36, 111⟩
    [(some (.constant ⟨37, 40⟩ (.text "k")),
      .list ⟨42, 66⟩ [.unary ⟨43, 65⟩ .negative (.constant ⟨45, 65⟩ (.int 9223372036854775808))]),
    (some (.constant ⟨68, 71⟩ (.text "l")),
      .tuple ⟨73, 101⟩ [.constant ⟨74, 78⟩ .none,
        .constant ⟨80, 100⟩ (.int 18446744073709551615)]),
    (some (.constant ⟨103, 106⟩ (.text "k")),
      .unary ⟨108, 110⟩ .positive (.constant ⟨109, 110⟩ (.int 0)))]

set_option maxRecDepth 20000 in
/-- Whole numbers at both ends of 64 bits are carried as they are written. -/
theorem literal_exact_borders :
    Source.ofText "src/App.py" (Registration.withProp bordersText borders).text =
        .ok (Registration.withProp bordersText borders) ∧
      literal (Registration.withProp bordersText borders) borders =
        .ok (.object [("k", .int 0), ("l", .array [.null, .int 18446744073709551615])]) := by
  have hexact : Exact (Registration.withProp bordersText borders) borders
      (.object (settled [("k", .array [.int (-9223372036854775808)]),
        ("l", .array [.null, .int 18446744073709551615]), ("k", .int 0)])) := by
    refine .dict (.cons (.list (.cons (.minus ?_ (by decide)) .nil))
      (.cons (.tuple (.cons .none (.cons (.whole ?_ (by decide)) .nil)))
        (.cons (.plus ?_ (by decide)) .nil)))
    · exact ⟨[' '], "9_223372036854775808", by decide, List.forall_mem_singleton.mpr rfl, by decide⟩
    · decide +kernel
    · exact ⟨[], "0", by decide, List.forall_mem_nil _, by decide⟩
  exact ⟨by rfl, (literal_exact hexact).1⟩

end Pagewright.Binding
