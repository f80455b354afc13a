import Pagewright.Proofs.Lexing.Names
import Pagewright.Proofs.Lexing.Words
import Pagewright.Proofs.Text.Trimming
import Pagewright.Proofs.Tree.Leading

namespace Pagewright.Syntax

open Text Rest

/-- A name that is no keyword, and that starts no literal whatever stands behind it. -/
structure Identifier.IsPlain (id : Text) : Prop where
  valid : Identifier.Valid id
  isName : Keyword.ofText? id = none
  starts : ∀ rest, literalStart? (id ++ rest) = none

/-- A name is plain if no literal starts with its first two letters. -/
theorem Identifier.IsPlain.of_letters {c d : Char} {cs : Text}
    (valid : Identifier.Valid (c :: d :: cs)) (isName : Keyword.ofText? (c :: d :: cs) = none)
    (letters : kindOfLetters? c d = none) : Identifier.IsPlain (c :: d :: cs) := by
  refine ⟨valid, isName, fun rest => ?_⟩
  obtain ⟨c', cs', heq, hc, hcs⟩ := valid
  obtain ⟨rfl, rfl⟩ := List.cons.inj heq
  have hd := isPart_not_quote (hcs d List.mem_cons_self)
  refine literalStart_none (isPart_not_quote (isPart_of_isStart hc)) ?_ ?_
  · intro d' hd' hquote
    obtain rfl : d = d' := by simpa using hd'
    simp [hd] at hquote
  · intro d' e hd' _ _
    obtain rfl : d = d' := by simpa using hd'
    exact letters

inductive IsPath : Text → Prop where
  | one {id : Text} (isPlain : Identifier.IsPlain id) : IsPath id
  | more {id path : Text} (isPlain : Identifier.IsPlain id) (later : IsPath path) :
    IsPath (id ++ '.' :: path)

theorem readLiteral_literal {kind : LiteralKind} {raw : Bool} {letters : Nat} {r r' : Rest}
    {t : Token} (h : readLiteral kind raw letters r = .ok (t, r')) : ∃ l, t.kind = .literal l := by
  unfold readLiteral at h
  simp only [bind, Except.bind, pure, Except.pure] at h
  split at h
  · cases h
  · obtain ⟨rfl, -⟩ := Prod.mk.inj (Except.ok.inj h)
    exact ⟨_, rfl⟩

/-- Only a second dot makes a dot a longer operator. -/
theorem Operator.dot_goesOn {c : Char} (h : Operator.dot.goesOn c = true) : c = '.' := by
  obtain ⟨o, -, ho⟩ := List.any_eq_true.mp h
  revert ho
  cases o <;> simp [Operator.text, List.isPrefixOf]

theorem Operator.leftBracket_goesOn (c : Char) : Operator.leftBracket.goesOn c = false := by
  rw [Bool.eq_false_iff]
  intro h
  obtain ⟨o, -, ho⟩ := List.any_eq_true.mp h
  revert ho
  cases o <;> simp [Operator.text, List.isPrefixOf]

namespace Identifier

/-- What a name is made of starts no gap. -/
theorem isPart_solid {c : Char} (h : isPart c = true) : isBlank c = false ∧ c ≠ '#' ∧ c ≠ '\\' := by
  refine ⟨?_, ?_, ?_⟩
  · by_contra hblank
    have hname := isBlank_not_name (by simpa using hblank)
    simp [h] at hname
  · rintro rfl
    exact absurd h (by decide)
  · rintro rfl
    exact absurd h (by decide)

/-- A bracket or a quote starts no gap, and belongs to no name. -/
theorem mark_apart {mark : Char} (h : mark = '[' ∨ isQuote mark = true) :
    (isBlank mark = false ∧ mark ≠ '#' ∧ mark ≠ '\\') ∧ isPart mark = false := by
  rcases h with rfl | h
  · decide
  · rcases isQuote_eq h with rfl | rfl <;> decide

/-- What stands behind blanks, or the blanks themselves, do not go on with a name. -/
theorem isPart_behind {blanks : Text} {c : Char} (rest : Text) (hblanks : IsSpace blanks)
    (hc : isPart c = false) : ∀ d ∈ (blanks ++ c :: rest).head?, isPart d = false := by
  intro d hd
  cases blanks with
  | nil =>
    obtain rfl : c = d := by simpa using hd
    exact hc
  | cons x blanks =>
    obtain rfl : x = d := by simpa using hd
    have hname := isBlank_not_name (hblanks x List.mem_cons_self)
    simp only [Bool.and_eq_true, Bool.not_eq_true'] at hname
    exact hname.1

/-- What starts a name is neither a dot nor a digit. -/
theorem isStart_apart {c : Char} (h : isStart c = true) :
    (Lexeme.symbol .dot).isApart c = true := by
  have hdot : Operator.dot.goesOn c = false := by
    rw [Bool.eq_false_iff]
    intro hgoes
    obtain rfl := Operator.dot_goesOn hgoes
    exact absurd h (by decide)
  have hdigits : ∀ n ∈ List.range' 48 10, isStart (Char.ofNat n) = false := by decide
  have hdigit : c.isDigit = false := by
    rw [Bool.eq_false_iff]
    intro hdigit
    have hrange := isDigit_range hdigit
    have hnot := hdigits c.toNat (List.mem_range'_1.mpr (by omega))
    rw [Char.ofNat_toNat, h] at hnot
    cases hnot
  simp [Lexeme.isApart, hdot, hdigit]

end Identifier

namespace Reader

variable {s s' : Reader} {ts : List Token} {c : Char} {rest : Text}

def opensGap (c : Char) : Prop :=
  c = '#' ∨ c = '\n' ∨ c = '\r' ∨ c = '\\' ∨ isInnerBlank c = true

/-- What a gap is made of starts no word. -/
theorem gap_apart (rest : Text) (hgap : opensGap c) : literalStart? (c :: rest) = none ∧
    Identifier.isStart c = false ∧ c.isDigit = false ∧ c ≠ '.' := by
  have hpart : Identifier.isPart c = false ∧ isQuote c = false ∧ c ≠ '.' := by
    rcases hgap with rfl | rfl | rfl | rfl | hblank
    · decide
    · decide
    · decide
    · decide
    · have hblank : (c = ' ' ∨ c = '\t') ∨ c = Char.ofNat 12 := by
        simpa [isInnerBlank] using hblank
      rcases hblank with (rfl | rfl) | rfl <;> decide
  obtain ⟨hpart, hquote, hdot⟩ := hpart
  refine ⟨literalStart_mark hquote hpart, ?_, ?_, hdot⟩
  · by_contra hstart
    simp [isPart_of_isStart (by simpa using hstart)] at hpart
  · by_contra hdigit
    simp [isDigit_part (by simpa using hdigit)] at hpart

/-- What a gap is made of is read as no word. -/
theorem readInLine_gap {s s' : Reader} {ts : List Token} (hc : s.rest.text = c :: rest)
    (hgap : opensGap c) (h : s.readInLine c = .ok (ts, s')) : ∀ t ∈ ts, t.kind.isLayout = true := by
  obtain ⟨hliteral, hstart, hdigit, hdot⟩ := gap_apart rest hgap
  unfold readInLine at h
  simp only [hc, hliteral, hstart, hdigit, hdot, Bool.false_eq_true, false_and, or_self,
    if_false] at h
  split at h
  · obtain ⟨rfl, -⟩ := Prod.mk.inj (Except.ok.inj h)
    simp
  · split at h
    · split at h
      · obtain ⟨rfl, -⟩ := Prod.mk.inj (Except.ok.inj h)
        simp
      · split at h
        · obtain ⟨rfl, -⟩ := Prod.mk.inj (Except.ok.inj h)
          simp [TokenKind.isLayout]
        · obtain ⟨rfl, -⟩ := Prod.mk.inj (Except.ok.inj h)
          simp
    · split at h
      · obtain ⟨rfl, -⟩ := Prod.mk.inj (Except.ok.inj h)
        simp
      · split at h
        · simp [continueLine_nil h]
        · rename_i h1 h2 h3 h4
          simp [opensGap, h1, h2, h3, h4] at hgap

/-- No operator starts with a blank. -/
theorem leading_solid {t after : Text} {o : Operator} (h : Operator.leading? t = some (o, after)) :
    ∀ c ∈ t.head?, isBlank c = false := by
  have hsolid : ∀ o : Operator, o.text.head?.any (fun c => !isBlank c) = true := by
    intro o
    cases o <;> decide
  intro c hc
  rw [Operator.leading_eq h] at hc
  cases hn : o.text with
  | nil => exact absurd hn o.text_narrow.1
  | cons d ds =>
    have hd := hsolid o
    rw [hn] at hc hd
    obtain rfl : d = c := by simpa using hc
    simpa using hd

/-- A word starts with no blank, and with nothing that starts a gap. -/
theorem readInLine_solid (hc : s.rest.text = c :: rest) (h : s.readInLine c = .ok (ts, s'))
    {t : Token} (ht : t ∈ ts) (hword : t.kind.isLayout = false) :
    isBlank c = false ∧ c ≠ '#' ∧ c ≠ '\\' := by
  have hnogap : ¬opensGap c := by
    intro hgap
    simp [readInLine_gap hc hgap h t ht] at hword
  simp only [opensGap, not_or] at hnogap
  refine ⟨?_, hnogap.1, hnogap.2.2.2.1⟩
  by_contra hblank
  have hblank : isBlank c = true := by simpa using hblank
  have hname := Identifier.isBlank_not_name hblank
  simp only [Bool.and_eq_true, Bool.not_eq_true'] at hname
  have hquote : isQuote c = false := by
    by_contra hq
    rcases isQuote_eq (by simpa using hq) with rfl | rfl <;> exact absurd hblank (by decide)
  have hmark : isMark c = true := by simp [isMark, hname, hquote, hnogap]
  have hdot : c ≠ '.' := by
    rintro rfl
    exact absurd hblank (by decide)
  rw [readInLine_mark hc hmark (fun h => absurd h hdot)] at h
  unfold readSymbol at h
  split at h
  · rename_i o after ho
    rw [hc] at ho
    simp [leading_solid ho c rfl] at hblank
  · split at h
    · cases h
    · simp [hname] at h

theorem readSymbol_operator {o : Operator} (ho : Operator.leading? s.rest.text = some (o, rest))
    (h : s.readSymbol c = .ok (ts, s')) :
    ∃ t, ts = [t] ∧ t.kind = .operator o ∧ s'.rest.text = rest := by
  unfold readSymbol at h
  simp only [ho] at h
  split at h
  · obtain ⟨rfl, rfl⟩ := Prod.mk.inj (Except.ok.inj h)
    exact ⟨_, rfl, rfl, rfl⟩
  · split at h
    · split at h
      · cases h
      · obtain ⟨rfl, rfl⟩ := Prod.mk.inj (Except.ok.inj h)
        exact ⟨_, rfl, rfl, rfl⟩
    · obtain ⟨rfl, rfl⟩ := Prod.mk.inj (Except.ok.inj h)
      exact ⟨_, rfl, rfl, rfl⟩

end Reader

namespace Token.IsRead

variable {x : Token} {r r' : Rest} {c : Char} {rest : Text}

theorem solid (h : x.IsRead r r') (hword : x.kind.isLayout = false) :
    ∃ c cs, r.text = c :: cs ∧ isBlank c = false ∧ c ≠ '#' ∧ c ≠ '\\' := by
  obtain ⟨s, s', c, cs, kind, rfl, rfl, hc, hread, hkind⟩ := h
  have hkind : kind.isLayout = false := by
    by_contra hlayout
    rw [hkind.eq_of_isLayout (by simpa using hlayout)] at hword
    exact hlayout hword
  exact ⟨c, cs, hc, Reader.readInLine_solid hc hread List.mem_cons_self hkind⟩

theorem name {id : Text} (h : x.IsRead r r') (hid : Identifier.IsPlain id)
    (hr : r.text = id ++ rest) (hends : ∀ c ∈ rest.head?, Identifier.isPart c = false) :
    x.kind = .name id ∧ r'.text = rest := by
  obtain ⟨s, s', c, cs, kind, rfl, rfl, hc, hread, hkind⟩ := h
  obtain ⟨htake, hdrop⟩ := Reader.takeWhile_valid hid.valid hends
  obtain ⟨d, ds, rfl, hd, -⟩ := hid.valid
  obtain ⟨rfl, -⟩ := List.cons.inj (hc.symm.trans hr)
  unfold Reader.readInLine at hread
  simp only [hr, hid.starts, hd, if_true] at hread
  obtain ⟨htoken, rfl⟩ := Prod.mk.inj (Except.ok.inj hread)
  have hname := congrArg Token.kind (List.cons.inj htoken).1
  simp only [readName, hr, htake, hid.isName] at hname
  subst hname
  refine ⟨?_, by simp only [readName, hr, hdrop]⟩
  rcases hkind with hkind | ⟨word, hword, -⟩
  · exact hkind
  · cases hword

theorem symbol {o : Operator} (h : x.IsRead r r') (hr : r.text = o.text ++ rest)
    (hapart : ∀ c ∈ rest.head?, (Lexeme.symbol o).isApart c = true) :
    x.kind = .operator o ∧ r'.text = rest := by
  obtain ⟨s, s', c, cs, kind, rfl, rfl, hc, hread, hkind⟩ := h
  obtain ⟨d, ds, htext, hsymbol, ho⟩ := Reader.readInLine_operator hr hapart
  obtain ⟨rfl, -⟩ := List.cons.inj (hc.symm.trans (hr.trans htext))
  rw [hsymbol] at hread
  obtain ⟨t, ht, hoperator, hrest⟩ := Reader.readSymbol_operator ho hread
  obtain rfl : kind = .operator o := by
    rw [← hoperator, ← (List.cons.inj ht).1]
  refine ⟨?_, hrest⟩
  rcases hkind with hkind | ⟨word, hword, -⟩
  · exact hkind
  · cases hword

theorem quoted (h : x.IsRead r r') (hr : r.text = c :: rest) (hc : isQuote c = true) :
    ∃ l, x.kind = .literal l := by
  obtain ⟨s, s', d, cs, kind, rfl, rfl, hd, hread, hkind⟩ := h
  obtain ⟨rfl, rfl⟩ := List.cons.inj (hd.symm.trans hr)
  have hstart : literalStart? (d :: cs) = some (.plain, false, 0) := by simp [literalStart?, hc]
  unfold Reader.readInLine at hread
  simp only [hd, hstart, bind, Except.bind, pure, Except.pure] at hread
  split at hread
  · cases hread
  · rename_i v hv
    obtain ⟨htoken, -⟩ := Prod.mk.inj (Except.ok.inj hread)
    obtain ⟨l, hl⟩ := readLiteral_literal hv
    rw [(List.cons.inj htoken).1] at hl
    obtain rfl : kind = .literal l := hl
    rcases hkind with hkind | ⟨word, hword, -⟩
    · exact ⟨l, hkind⟩
    · cases hword

end Token.IsRead

structure Upto (r : Rest) (ts : List Token) (stop : Nat) : Prop where
  spelled : ∃ later, Spelled r (ts ++ later)
  words : ∀ t ∈ ts, t.kind.isLayout = false
  stops : (ts.getLast?.map Token.stop).getD r.offset = stop

namespace Upto

variable {r : Rest} {ts : List Token} {stop : Nat} {blanks path rest : Text} {c : Char}

/-- Where there are words left, the next one of them is read behind a gap. -/
theorem next (h : Upto r ts stop) (hlt : r.offset < stop) :
    ∃ x xs gap w r₁ r₂, ts = x :: xs ∧ IsGap gap ∧ Past r gap r₁ ∧ Past r₁ w r₂ ∧
      x.kind.isLayout = false ∧ x.IsRead r₁ r₂ ∧ Upto r₂ xs stop := by
  obtain ⟨⟨later, hspelled⟩, hwords, hstops⟩ := h
  cases ts with
  | nil =>
    simp only [List.getLast?_nil, Option.map_none, Option.getD_none] at hstops
    omega
  | cons x xs =>
    obtain ⟨hword, hwords⟩ := List.forall_mem_cons.mp hwords
    cases hspelled with
    | layout kind =>
      rw [kind] at hword
      cases hword
    | word isGap before nonempty past start stop' written isRead later =>
      refine ⟨x, xs, _, _, _, _, rfl, isGap, before, past, hword, isRead, ⟨_, later⟩, hwords, ?_⟩
      rw [← hstops, List.getLast?_cons]
      cases xs.getLast? with
      | none => exact stop'.symm
      | some y => rfl

/-- Behind blanks the next word starts where they end. -/
theorem behind (h : Upto r ts stop) (hr : r.text = blanks ++ c :: rest) (hblanks : IsSpace blanks)
    (hc : isBlank c = false ∧ c ≠ '#' ∧ c ≠ '\\') (hlt : r.offset < stop) :
    ∃ x xs w r₁ r₂, ts = x :: xs ∧ x.kind.isLayout = false ∧ r₁.text = c :: rest ∧
      r₁.offset = r.offset + size blanks ∧ Past r₁ w r₂ ∧ x.IsRead r₁ r₂ ∧ Upto r₂ xs stop := by
  obtain ⟨x, xs, gap, w, r₁, r₂, rfl, hgap, hpast, hw, hword, hread, hlater⟩ := h.next hlt
  obtain ⟨d, ds, hd, hsolid⟩ := hread.solid hword
  obtain ⟨blanks', mid, rfl, hblanks', hmid⟩ := hgap
  have htext := hpast.text
  rw [hr, hd, List.append_assoc] at htext
  have hrun : IsRun isBlank blanks (c :: rest) := ⟨hblanks, by simpa using hc.1⟩
  have hrun' : IsRun isBlank blanks' (mid ++ d :: ds) := by
    refine ⟨hblanks', ?_⟩
    intro m hm
    cases mid with
    | nil =>
      obtain rfl : d = m := by simpa using hm
      exact hsolid.1
    | cons y mid =>
      obtain rfl : y = m := by simpa using hm
      rcases hmid y rfl with rfl | rfl <;> decide
  obtain ⟨rfl, hsame⟩ := hrun.unique hrun' htext
  cases mid with
  | nil =>
    refine ⟨x, xs, w, r₁, r₂, rfl, hword, by rw [hd]; exact hsame.symm, ?_, hw, hread, hlater⟩
    simpa using hpast.offset
  | cons y mid =>
    obtain ⟨rfl, -⟩ := List.cons.inj hsame
    rcases hmid c rfl with hmark | hmark
    · exact absurd hmark hc.2.1
    · exact absurd hmark hc.2.2

/-- A plain name is read where it stands, if nothing goes on with it. -/
theorem name {id : Text} (h : Upto r ts stop) (hid : Identifier.IsPlain id)
    (hr : r.text = id ++ rest) (hends : ∀ c ∈ rest.head?, Identifier.isPart c = false)
    (hle : r.offset + size id ≤ stop) :
    ∃ x xs r', ts = x :: xs ∧ x.kind = .name id ∧ r'.text = rest ∧
      r'.offset = r.offset + size id ∧ Upto r' xs stop := by
  obtain ⟨c, cs, hcs, hc, -⟩ := hid.valid
  have hpos := c.utf8Size_pos
  have hlt : r.offset < stop := by
    rw [hcs, size_cons] at hle
    omega
  have hstart : r.text = [] ++ c :: (cs ++ rest) := by rw [hr, hcs, List.cons_append]; rfl
  obtain ⟨x, xs, w, r₁, r₂, rfl, hword, htext, hoffset, hw, hread, hlater⟩ :=
    h.behind hstart (by simp [IsSpace]) (Identifier.isPart_solid (isPart_of_isStart hc)) hlt
  have htext : r₁.text = id ++ rest := by rw [htext, hcs, List.cons_append]
  obtain ⟨hname, hrest⟩ := hread.name hid htext hends
  refine ⟨x, xs, r₂, rfl, hname, hrest, ?_, hlater⟩
  have hsame := hw.text
  rw [htext, hrest] at hsame
  rw [hw.offset, hoffset, ← List.append_cancel_right hsame, size_nil, Nat.add_zero]

end Upto

theorem Dotted.cons {x dot : Token} {ts : List Token} {id path : Text} (hx : x.kind = .name id)
    (hdot : dot.kind = .operator .dot) (h : Dotted ts path) :
    Dotted (x :: dot :: ts) (id ++ '.' :: path) := by
  induction h with
  | one name => exact .more (.one hx) hdot name
  | more before isDot name ih => simpa using ih.more isDot name

theorem IsPath.starts {path : Text} (h : IsPath path) :
    ∃ c cs, path = c :: cs ∧ Identifier.isStart c = true := by
  cases h with
  | one isPlain =>
    obtain ⟨c, cs, rfl, hc, -⟩ := isPlain.valid
    exact ⟨c, cs, rfl, hc⟩
  | more isPlain =>
    obtain ⟨c, cs, rfl, hc, -⟩ := isPlain.valid
    exact ⟨c, _, rfl, hc⟩

/-- A dotted name is read as its names and dots, if nothing goes on with the last one. -/
theorem IsPath.dotted {path rest : Text} (hp : IsPath path) {r : Rest} {ts : List Token} {stop : Nat}
    (h : Upto r ts stop) (hr : r.text = path ++ rest)
    (hends : ∀ c ∈ rest.head?, Identifier.isPart c = false) (hle : r.offset + size path ≤ stop) :
    ∃ ns us r', ts = ns ++ us ∧ Dotted ns path ∧ r'.text = rest ∧
      r'.offset = r.offset + size path ∧ Upto r' us stop := by
  induction hp generalizing r ts with
  | one isPlain =>
    obtain ⟨x, xs, r', rfl, hx, hrest, hoffset, hlater⟩ := h.name isPlain hr hends hle
    exact ⟨[x], xs, r', rfl, .one hx, hrest, hoffset, hlater⟩
  | @more id path isPlain later ih =>
    rw [List.append_assoc] at hr
    rw [size_append, size_cons] at hle
    obtain ⟨x, xs, r₁, rfl, hx, hrest, hoffset, hlater⟩ :=
      h.name isPlain hr (by simp; decide) (by omega)
    have hdot : ('.').utf8Size = 1 := rfl
    have hrest : r₁.text = [] ++ '.' :: (path ++ rest) := hrest
    obtain ⟨dot, us, w, r₂, r₃, rfl, hword, htext, hoffset', hw, hread, hlater⟩ :=
      hlater.behind hrest (by simp [IsSpace]) (by decide) (by omega)
    have hapart : ∀ c ∈ (path ++ rest).head?, (Lexeme.symbol .dot).isApart c = true := by
      obtain ⟨d, ds, rfl, hd⟩ := later.starts
      intro c hc
      obtain rfl : d = c := by simpa using hc
      exact Identifier.isStart_apart hd
    obtain ⟨hkind, hrest⟩ := hread.symbol (o := .dot) htext hapart
    have hsame := hw.text
    rw [htext, hrest] at hsame
    have hwdot : w = ['.'] := List.append_cancel_right hsame.symm
    have hoffset₃ : r₃.offset = r.offset + size id + 1 := by
      rw [hw.offset, hoffset', hoffset, hwdot, size_cons, hdot]
      rfl
    obtain ⟨ns, vs, r', rfl, hns, hrest', hoffset₄, hlater⟩ := ih hlater hrest (by omega)
    refine ⟨x :: dot :: ns, vs, r', rfl, .cons hx hkind hns, hrest', ?_, hlater⟩
    rw [hoffset₄, hoffset₃, size_append, size_cons, hdot]
    omega

end Pagewright.Syntax
