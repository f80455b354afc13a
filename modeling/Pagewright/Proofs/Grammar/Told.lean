import Pagewright.Proofs.Grammar.Takes
import Pagewright.Syntax.Expression

namespace Pagewright.Syntax

/-- A span from the start of a word to the stop of one, between two cursors. -/
def Cursor.Covers (c c' : Cursor) (s : Span) : Prop :=
  ∃ c₁ c₂, c.Reaches c₁ ∧ c₁.Passes c₂ ∧ c₂.Reaches c' ∧ s = ⟨c₁.here, c₂.stop⟩

def TokenKind.isForeign : TokenKind → Bool
  | .keyword word => word.text.any Number.isForeign
  | .operator symbol => symbol.text.any Number.isForeign
  | .imaginary _ | .literal _ => true
  | _ => false

def Expr.isReference : Expr → Bool
  | .name .. | .attribute .. => true
  | _ => false

/-- What an arithmetic factor is read from, as far as its words could be those of a number. -/
inductive Shape : List Token → Expr → Prop where
  | constant {t : Token} {s : Span} {v : Constant} (kind : Expression.constant? t.kind = some v) :
    Shape [t] (.constant s v)
  | reference {ts : List Token} {e : Expr} (isReference : e.isReference = true) : Shape ts e
  | signed {t : Token} {ts : List Token} {s : Span} {op : UnaryOp} {e : Expr}
    (sign : Expression.sign? t.kind = some op) (operand : Shape ts e) :
    Shape (t :: ts) (.unary s op e)
  | foreign {t : Token} {ts : List Token} {e : Expr} (mem : t ∈ ts)
    (isForeign : t.kind.isForeign = true) : Shape ts e

mutual

/-- The whole numbers and signs that an expression has as a literal, or in the keyword arguments
of a call. -/
def Expr.parts : Expr → List Expr
  | .constant s (.int n) => [.constant s (.int n)]
  | .unary s op e => [.unary s op e]
  | .list _ items => partsAll items
  | .tuple _ items => partsAll items
  | .dict _ entries => partsEntries entries
  | .call _ _ _ keywords => partsKeywords keywords
  | _ => []

def partsAll : List Expr → List Expr
  | [] => []
  | e :: es => e.parts ++ partsAll es

def partsEntries : List (Option Expr × Expr) → List Expr
  | [] => []
  | (_, e) :: es => e.parts ++ partsEntries es

def partsKeywords : List (KeywordArg Expr) → List Expr
  | [] => []
  | ⟨_, e⟩ :: ks => e.parts ++ partsKeywords ks

end

theorem mem_partsAll {x : Expr} {es : List Expr} :
    x ∈ partsAll es ↔ ∃ e ∈ es, x ∈ e.parts := by
  induction es with
  | nil => simp [partsAll]
  | cons e es ih => simp [partsAll, ih]

theorem mem_partsEntries {x : Expr} {es : List (Option Expr × Expr)} :
    x ∈ partsEntries es ↔ ∃ e ∈ es, x ∈ e.2.parts := by
  induction es with
  | nil => simp [partsEntries]
  | cons e es ih => simp [partsEntries, ih]

theorem mem_partsKeywords {x : Expr} {ks : List (KeywordArg Expr)} :
    x ∈ partsKeywords ks ↔ ∃ k ∈ ks, x ∈ k.value.parts := by
  induction ks with
  | nil => simp [partsKeywords]
  | cons k ks ih => simp [partsKeywords, ih]

/-- Words between two cursors that an expression of a shape is read from. -/
def ReadFrom (c c' : Cursor) (e : Expr) : Prop :=
  ∃ c₁ ts c₂, c.Reaches c₁ ∧ c₁.Takes ts c₂ ∧ c₁.Passes c₂ ∧ c₂.Reaches c' ∧
    e.span = ⟨c₁.here, c₂.stop⟩ ∧ Shape ts e

/-- An expression between two cursors. -/
structure Told (c c' : Cursor) (e : Expr) : Prop where
  span : c.Covers c' e.span
  parts : ∀ x ∈ e.parts, ReadFrom c c' x

/-- An arithmetic factor that takes all words between two cursors. -/
structure Formed (c c' : Cursor) (e : Expr) : Prop extends Told c c' e where
  shape : ∃ ts, c.Takes ts c' ∧ Shape ts e

theorem extends_covers : Parser.Extends Cursor.Covers := by
  constructor
  · rintro c c₁ c₂ s h ⟨d, d', hd, hdd, hd', hs⟩
    exact ⟨d, d', h.trans hd, hdd, hd', hs⟩
  · rintro c c₁ c₂ s ⟨d, d', hd, hdd, hd', hs⟩ h
    exact ⟨d, d', hd, hdd, hd'.trans h, hs⟩

theorem extends_readFrom : Parser.Extends ReadFrom := by
  constructor
  · rintro c c₁ c₂ s h ⟨d, ts, d', hd, hrest, hpasses, hd', hs⟩
    exact ⟨d, ts, d', h.trans hd, hrest, hpasses, hd', hs⟩
  · rintro c c₁ c₂ s ⟨d, ts, d', hd, hrest, hpasses, hd', hs⟩ h
    exact ⟨d, ts, d', hd, hrest, hpasses, hd'.trans h, hs⟩

theorem extends_told : Parser.Extends Told := by
  constructor
  · rintro c c₁ c₂ e h ⟨hspan, hparts⟩
    exact ⟨extends_covers.before h hspan, fun x hx => extends_readFrom.before h (hparts x hx)⟩
  · rintro c c₁ c₂ e ⟨hspan, hparts⟩ h
    exact ⟨extends_covers.after hspan h, fun x hx => extends_readFrom.after (hparts x hx) h⟩

variable {c c' : Cursor} {e : Expr}

theorem Told.passes (h : Told c c' e) : c.Passes c' := by
  obtain ⟨c₁, c₂, h₁, h₂, h₃, -⟩ := h.span
  exact (h₁.passes h₂).trans h₃

theorem covers_whole (h : c.Passes c') : c.Covers c' ⟨c.here, c'.stop⟩ :=
  ⟨c, c', .refl c, h, .refl c', rfl⟩

/-- An expression that takes all words between two cursors. -/
theorem told_whole (h : c.Passes c') (hs : e.span = ⟨c.here, c'.stop⟩)
    (hparts : ∀ x ∈ e.parts, ReadFrom c c' x) : Told c c' e :=
  ⟨hs ▸ covers_whole h, hparts⟩

/-- The same without whole numbers and signs that count. -/
theorem told_plain (h : c.Passes c') (hs : e.span = ⟨c.here, c'.stop⟩) (hparts : e.parts = []) :
    Told c c' e :=
  told_whole h hs (by simp [hparts])

theorem told_tuple {s : Span} {items : List Expr} (h : c.Passes c') (hs : s = ⟨c.here, c'.stop⟩)
    (hitems : ∀ e ∈ items, Told c c' e) : Told c c' (.tuple s items) := by
  refine told_whole h hs fun x hx => ?_
  obtain ⟨e, he, hx⟩ := mem_partsAll.mp (by simpa [Expr.parts] using hx)
  exact (hitems e he).parts x hx

theorem told_list {s : Span} {items : List Expr} (h : c.Passes c') (hs : s = ⟨c.here, c'.stop⟩)
    (hitems : ∀ e ∈ items, Told c c' e) : Told c c' (.list s items) := by
  refine told_whole h hs fun x hx => ?_
  obtain ⟨e, he, hx⟩ := mem_partsAll.mp (by simpa [Expr.parts] using hx)
  exact (hitems e he).parts x hx

theorem told_dict {s : Span} {entries : List (Option Expr × Expr)} (h : c.Passes c')
    (hs : s = ⟨c.here, c'.stop⟩) (hentries : ∀ e ∈ entries, Told c c' e.2) :
    Told c c' (.dict s entries) := by
  refine told_whole h hs fun x hx => ?_
  obtain ⟨e, he, hx⟩ := mem_partsEntries.mp (by simpa [Expr.parts] using hx)
  exact (hentries e he).parts x hx

theorem told_call {s : Span} {callee : Expr} {args : List Expr}
    {keywords : List (KeywordArg Expr)} (h : c.Passes c') (hs : s = ⟨c.here, c'.stop⟩)
    (hkeywords : ∀ k ∈ keywords, Told c c' k.value) :
    Told c c' (.call s callee args keywords) := by
  refine told_whole h hs fun x hx => ?_
  obtain ⟨k, hk, hx⟩ := mem_partsKeywords.mp (by simpa [Expr.parts] using hx)
  exact (hkeywords k hk).parts x hx

/-- A factor that takes all words between two cursors, by its shape. -/
theorem formed_whole {ts : List Token} (h : c.Passes c') (hs : e.span = ⟨c.here, c'.stop⟩)
    (hts : c.Takes ts c') (hshape : Shape ts e) (hparts : e.parts = [e] ∨ e.parts = []) :
    Formed c c' e := by
  refine ⟨told_whole h hs fun x hx => ?_, ts, hts, hshape⟩
  rcases hparts with hp | hp
  · obtain rfl : x = e := by simpa [hp] using hx
    exact ⟨c, ts, c', .refl c, hts, h, .refl c', hs, hshape⟩
  · simp [hp] at hx

/-- A factor with a foreign word. -/
theorem Told.formed {t : Token} {ts : List Token} (h : Told c c' e) (hts : c.Takes ts c')
    (hmem : t ∈ ts) (ht : t.kind.isForeign = true) : Formed c c' e :=
  ⟨h, ts, hts, .foreign hmem ht⟩

theorem Told.formed_first {c₁ : Cursor} {t : Token} (h : Told c c' e) (ht : c.Takes [t] c₁)
    (h₁ : c₁.Reaches c') (hforeign : t.kind.isForeign = true) : Formed c c' e := by
  obtain ⟨ts, hts, -⟩ := h₁
  exact h.formed (ht.trans hts) List.mem_cons_self hforeign

structure Grammar.Tells (g : Grammar) : Prop where
  test : Parser.Item g.test Told
  disjunction : Parser.Item g.disjunction Told
  negation : Parser.Item g.negation Told
  operand : Parser.Item g.operand Told
  factor : Parser.Item g.factor Formed

end Pagewright.Syntax
