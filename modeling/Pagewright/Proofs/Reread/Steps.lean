import Pagewright.Proofs.Lexing.Names
import Pagewright.Proofs.Lexing.Paths
import Pagewright.Proofs.Reread.Even
import Pagewright.Proofs.Reread.Words

namespace Pagewright.Syntax.Reader

open Text

variable {s s' b : Reader} {c : Char} {cs u : Text} {t : Token} {o : Operator} {d : Nat}
  {read : Reader → Char → Except Fault (List Token × Reader)}

/-- The token that a step gives is given again where what follows it rejoins, as long as the token
closes no bracket that was not opened. -/
structure StepAgain (read : Reader → Char → Except Fault (List Token × Reader)) (s s' : Reader)
    (c : Char) (cs : Text) (t : Token) : Prop where
  depth : t.kind.depthBehind? s.depth = some s'.depth
  line : s'.atLineStart = s.atLineStart
  again : ∃ w, cs = w ++ s'.rest.text ∧ ∀ (b : Reader) (u : Text) (d : Nat),
    b.rest.text = c :: w ++ u → Rejoins s'.rest.text u → t.kind.depthBehind? b.depth = some d →
      ∃ t' place, t'.kind = t.kind ∧
        read b c = .ok ([t'], ⟨⟨u, place⟩, d, b.atLineStart, b.blocks⟩)

/-- An operator is read as one token that may open or close a bracket. -/
theorem readSymbol_eq (ho : Operator.leading? s.rest.text = some (o, u))
    (hd : (TokenKind.operator o).depthBehind? s.depth = some d) :
    s.readSymbol c = .ok ([⟨.operator o, s.rest.offset, s.rest.offset + o.text.length⟩],
      ⟨⟨u, s.rest.offset + o.text.length⟩, d, s.atLineStart, s.blocks⟩) := by
  simp only [readSymbol, ho]
  simp only [TokenKind.depthBehind?] at hd
  split at hd
  · rename_i hopens
    obtain rfl := Option.some.inj hd
    rw [if_pos hopens]
  · rename_i hopens
    rw [if_neg hopens]
    split at hd
    · rename_i hcloses
      rw [if_pos hcloses]
      split at hd
      · cases hd
      · rename_i hdepth
        obtain rfl := Option.some.inj hd
        rw [if_neg hdepth]
    · rename_i hcloses
      obtain rfl := Option.some.inj hd
      rw [if_neg hcloses]

theorem readSymbol_depth {ts : List Token} (ho : Operator.leading? s.rest.text = some (o, u))
    (h : s.readSymbol c = .ok (ts, s')) :
    (TokenKind.operator o).depthBehind? s.depth = some s'.depth := by
  simp only [readSymbol, ho] at h
  simp only [TokenKind.depthBehind?]
  split at h
  · rename_i hopens
    obtain ⟨-, rfl⟩ := Prod.mk.inj (Except.ok.inj h)
    rw [if_pos hopens]
  · rename_i hopens
    rw [if_neg hopens]
    split at h
    · rename_i hcloses
      rw [if_pos hcloses]
      split at h
      · cases h
      · rename_i hdepth
        obtain ⟨-, rfl⟩ := Prod.mk.inj (Except.ok.inj h)
        rw [if_neg hdepth]
    · rename_i hcloses
      obtain ⟨-, rfl⟩ := Prod.mk.inj (Except.ok.inj h)
      rw [if_neg hcloses]

/-- A symbol is read again where what follows it rejoins. -/
theorem again_readSymbol (hc : s.rest.text = c :: cs) (h : s.readSymbol c = .ok ([t], s')) :
    StepAgain readSymbol s s' c cs t := by
  cases ho : Operator.leading? s.rest.text with
  | some p =>
    obtain ⟨o, rest⟩ := p
    have hdepth := readSymbol_depth ho h
    generalize s'.depth = d at hdepth
    rw [readSymbol_eq ho hdepth] at h
    obtain ⟨ht, rfl⟩ := Prod.mk.inj (Except.ok.inj h)
    obtain rfl := List.singleton_injective ht
    obtain ⟨d, w, hw⟩ := List.exists_cons_of_ne_nil o.text_narrow.1
    obtain ⟨rfl, rfl⟩ : c = d ∧ cs = w ++ rest := by
      simpa [hc, hw] using Operator.leading_eq ho
    refine ⟨hdepth, rfl, w, rfl, fun b u d hb hu hd => ?_⟩
    have hb' : Operator.leading? b.rest.text = some (o, u) := by
      rw [hb, ← hw]
      exact Operator.again_leading ho hu
    exact ⟨⟨.operator o, b.rest.offset, b.rest.offset + o.text.length⟩,
      b.rest.offset + o.text.length, rfl, readSymbol_eq hb' hd⟩
  | none =>
    simp only [readSymbol, ho] at h
    split at h
    · cases h
    · rename_i hbang
      split at h
      · rename_i hpicture
        obtain ⟨ht, rfl⟩ := Prod.mk.inj (Except.ok.inj h)
        obtain rfl := List.singleton_injective ht
        refine ⟨rfl, rfl, [], by simp [hc], fun b u d hb hu hd => ?_⟩
        obtain rfl := Option.some.inj hd
        rw [hc] at ho
        simp only [hc, List.drop_succ_cons, List.drop_zero] at hu
        have ho' : Operator.leading? b.rest.text = none := by
          rw [hb]
          exact Operator.leading_none_again ho hu
        refine ⟨⟨.name [c], b.rest.offset, b.rest.offset + c.utf8Size⟩,
          b.rest.offset + c.utf8Size, rfl, ?_⟩
        simp only [readSymbol, ho', if_neg hbang, if_pos hpicture]
        rw [hb]
        rfl
      · cases h

inductive Finds (s : Reader) (c : Char) : List Token → Reader → Prop
  | literal {kind : LiteralKind} {raw : Bool} {letters : Nat} {t : Token} {r : Rest}
    (starts : literalStart? s.rest.text = some (kind, raw, letters))
    (read : readLiteral kind raw letters s.rest = .ok (t, r)) : Finds s c [t] { s with rest := r }
  | name (none : literalStart? s.rest.text = none) (starts : Identifier.isStart c = true) :
    Finds s c [(readName s.rest).1] { s with rest := (readName s.rest).2 }
  | number {t : Token} {r : Rest} (none : literalStart? s.rest.text = none)
    (noName : Identifier.isStart c = false)
    (starts : c.isDigit = true ∨ (c = '.' ∧ (s.rest.text.drop 1).head?.any Char.isDigit = true))
    (read : readNumber s.rest = .ok (t, r)) : Finds s c [t] { s with rest := r }
  | gap {ts : List Token} {s' : Reader} (opens : opensGap c)
    (layout : ∀ t ∈ ts, t.kind.isLayout = true) : Finds s c ts s'
  | symbol {ts : List Token} {s' : Reader} (none : literalStart? s.rest.text = none)
    (noName : Identifier.isStart c = false)
    (noNumber : ¬(c.isDigit = true ∨ (c = '.' ∧ (s.rest.text.drop 1).head?.any Char.isDigit = true)))
    (noGap : ¬opensGap c) (read : s.readSymbol c = .ok (ts, s')) : Finds s c ts s'

/-- What is read inside a line is found again on the same text among other brackets. -/
theorem readInLine_finds {ts : List Token} (hc : s.rest.text = c :: cs)
    (h : s.readInLine c = .ok (ts, s')) : Finds s c ts s' := by
  by_cases hgap : opensGap c
  · exact .gap hgap (readInLine_gap hc hgap h)
  · have hno := hgap
    simp only [opensGap, not_or] at hno
    unfold readInLine at h
    split at h
    · obtain ⟨⟨t, r⟩, hread, h⟩ := bind_eq_ok_iff.mp h
      obtain ⟨rfl, rfl⟩ := Prod.mk.inj (Except.ok.inj h)
      exact .literal ‹_› hread
    · split at h
      · obtain ⟨rfl, rfl⟩ := Prod.mk.inj (Except.ok.inj h)
        exact .name ‹_› ‹_›
      · rename_i hstart
        split at h
        · obtain ⟨⟨t, r⟩, hread, h⟩ := bind_eq_ok_iff.mp h
          obtain ⟨rfl, rfl⟩ := Prod.mk.inj (Except.ok.inj h)
          exact .number ‹_› (by simpa using hstart) ‹_› hread
        · rename_i hnumber
          rw [if_neg hno.1, if_neg (by simp [hno.2.1, hno.2.2.1]), if_neg hno.2.2.2.2,
            if_neg hno.2.2.2.1] at h
          exact .symbol ‹_› (by simpa using hstart) hnumber hgap h

theorem readSymbol_word {ts : List Token} (h : s.readSymbol c = .ok (ts, s')) :
    ∃ t, ts = [t] ∧ ((∃ o, t.kind = .operator o) ∨ t.kind = .name [c]) := by
  cases ho : Operator.leading? s.rest.text with
  | some p =>
    obtain ⟨t, rfl, hkind, -⟩ := readSymbol_operator ho h
    exact ⟨t, rfl, .inl ⟨p.1, hkind⟩⟩
  | none =>
    simp only [readSymbol, ho] at h
    split at h
    · cases h
    · split at h
      · obtain ⟨rfl, -⟩ := Prod.mk.inj (Except.ok.inj h)
        exact ⟨_, rfl, .inr rfl⟩
      · cases h

theorem readName_kind (r : Rest) : (∃ w, (readName r).1.kind = .keyword w) ∨
    ∃ id, (readName r).1.kind = .name id := by
  cases hk : Keyword.ofText? (r.text.takeWhile Identifier.isPart) with
  | some w => exact .inl ⟨w, by simp [readName, hk]⟩
  | none => exact .inr ⟨r.text.takeWhile Identifier.isPart, by simp [readName, hk]⟩

theorem readName_depth (r : Rest) (d : Nat) : (readName r).1.kind.depthBehind? d = some d := by
  rcases readName_kind r with ⟨w, hw⟩ | ⟨id, hid⟩
  · rw [hw]
    rfl
  · rw [hid]
    rfl

theorem readNumber_depth {r r' : Rest} (h : readNumber r = .ok (t, r')) (d : Nat) :
    t.kind.depthBehind? d = some d := by
  have hkind := readNumber_isNumber h
  revert hkind
  generalize t.kind = k
  intro hkind
  cases k <;> first | rfl | cases hkind

section Cases

variable (hnone : literalStart? s.rest.text = none)

theorem readInLine_literal {kind : LiteralKind} {raw : Bool} {letters : Nat} {r : Rest}
    (hl : literalStart? s.rest.text = some (kind, raw, letters))
    (h : readLiteral kind raw letters s.rest = .ok (t, r)) :
    s.readInLine c = .ok ([t], { s with rest := r }) := by
  simp only [readInLine, hl, h]
  rfl

include hnone

theorem readInLine_name (hstart : Identifier.isStart c = true) :
    s.readInLine c = .ok ([(readName s.rest).1], { s with rest := (readName s.rest).2 }) := by
  simp only [readInLine, hnone, if_pos hstart]

theorem readInLine_number {r : Rest} (hstart : Identifier.isStart c = false)
    (hnumber : c.isDigit = true ∨ (c = '.' ∧ (s.rest.text.drop 1).head?.any Char.isDigit = true))
    (h : readNumber s.rest = .ok (t, r)) : s.readInLine c = .ok ([t], { s with rest := r }) := by
  simp only [readInLine, hnone, hstart, Bool.false_eq_true, if_false, if_pos hnumber, h]
  rfl

theorem readInLine_other (hstart : Identifier.isStart c = false)
    (hnumber : ¬(c.isDigit = true ∨ (c = '.' ∧ (s.rest.text.drop 1).head?.any Char.isDigit = true)))
    (hgap : ¬opensGap c) : s.readInLine c = s.readSymbol c := by
  simp only [opensGap, not_or] at hgap
  have hend : ¬(c = '\n' ∨ c = '\r') := by simp [hgap.2.1, hgap.2.2.1]
  simp only [readInLine, hnone, hstart, if_neg hnumber, if_neg hgap.1, if_neg hend,
    if_neg hgap.2.2.2.2, if_neg hgap.2.2.2.1, Bool.false_eq_true, if_false]

end Cases

theorem hasText {r : Rest} (h : r.text = u) : r = ⟨u, r.offset⟩ := by
  rw [← h]

/-- A token of a line is read again. -/
theorem again_readInLine (hc : s.rest.text = c :: cs) (h : s.readInLine c = .ok ([t], s'))
    (hline : t.kind.isLayout = false) : StepAgain readInLine s s' c cs t := by
  obtain ⟨w₀, hw₀, hpast⟩ := (readInLine_took hc h).passes
  have htext := hpast.text
  obtain ⟨c', v, rfl⟩ := List.exists_cons_of_ne_nil hw₀
  obtain ⟨rfl, hcs⟩ := List.cons.inj (hc.symm.trans htext)
  have hwhole {b : Reader} {u : Text} (hb : b.rest.text = c :: v ++ u)
      (hu : Rejoins s'.rest.text u) : Rejoins s.rest.text b.rest.text := by
    rw [htext, hb]
    exact hu.append (c :: v)
  generalize hts : [t] = ts at h
  cases readInLine_finds hc h with
  | literal starts read =>
    obtain rfl := List.singleton_injective hts
    obtain ⟨l, hkind⟩ := readLiteral_literal read
    obtain ⟨w, hw, hagain⟩ := again_readLiteral starts read
    obtain rfl : c :: v = w := List.append_cancel_right (htext.symm.trans hw)
    refine ⟨by rw [hkind]; rfl, rfl, v, hcs, fun b u d hb hu hd => ?_⟩
    obtain ⟨starts', t', place, read', hkind'⟩ := hagain u b.rest.offset hu
    rw [hkind] at hd
    obtain rfl := Option.some.inj hd
    rw [← hb] at starts'
    rw [← hasText hb] at read'
    exact ⟨t', place, hkind', readInLine_literal starts' read'⟩
  | name none starts =>
    obtain rfl := List.singleton_injective hts
    have hv : s.rest.text.takeWhile Identifier.isPart = c :: v := by
      have hsplit := List.takeWhile_append_dropWhile (p := Identifier.isPart) (l := s.rest.text)
      exact List.append_cancel_right (hsplit.trans htext)
    refine ⟨readName_depth _ _, rfl, v, hcs, fun b u d hb hu hd => ?_⟩
    obtain rfl := Option.some.inj ((readName_depth _ _).symm.trans hd)
    obtain ⟨hkind, hrest⟩ := readName_again b.rest.offset hu
    rw [hv, ← hasText hb] at hkind hrest
    refine ⟨(readName b.rest).1, (readName b.rest).2.offset, hkind, ?_⟩
    rw [readInLine_name ((hwhole hb hu).literalStart none) starts, ← hrest]
  | @number _ r none noName starts read =>
    obtain rfl := List.singleton_injective hts
    have hdepth := readNumber_depth read
    obtain ⟨w, hw, hagain⟩ := again_readNumber _ _ _ read
    obtain rfl : c :: v = w := List.append_cancel_right (htext.symm.trans hw)
    refine ⟨hdepth _, rfl, v, hcs, fun b u d hb hu hd => ?_⟩
    obtain rfl := Option.some.inj ((hdepth _).symm.trans hd)
    obtain ⟨t', place, read', hkind⟩ := hagain u b.rest.offset hu
    rw [← hasText hb] at read'
    refine ⟨t', place, hkind, ?_⟩
    refine readInLine_number ((hwhole hb hu).literalStart none) noName ?_ read'
    refine starts.imp_right fun ⟨hpoint, hdigit⟩ => ⟨hpoint, ?_⟩
    -- At least one digit is read with the point, so that it is there again.
    subst hpoint
    rw [hc, List.drop_succ_cons, List.drop_zero] at hdigit
    obtain ⟨d, ds, hds⟩ : ∃ d ds, cs = d :: ds := by
      cases cs with
      | nil => cases hdigit
      | cons d ds => exact ⟨d, ds, rfl⟩
    have hd : d.isDigit = true := by simpa [hds] using hdigit
    rw [hasText hc, hds] at read
    have hlen := readNumber_point hd read
    rw [hb]
    cases v with
    | nil =>
      have hcount : (d :: ds).length = r.text.length := congrArg List.length (hds.symm.trans hcs)
      rw [List.length_cons] at hcount
      omega
    | cons x v =>
      obtain ⟨rfl, -⟩ := List.cons.inj (hds.symm.trans hcs)
      simpa using hd
  | gap opens layout =>
    have hlayout := layout t (by simp [← hts])
    rw [hline] at hlayout
    cases hlayout
  | symbol none noName noNumber noGap read =>
    rw [← hts] at read
    obtain ⟨hdepth, hsame, w, hw, hagain⟩ := again_readSymbol hc read
    obtain rfl : v = w := List.append_cancel_right (hcs.symm.trans hw)
    refine ⟨hdepth, hsame, v, hw, fun b u d hb hu hd => ?_⟩
    obtain ⟨t', place, hkind, hread⟩ := hagain b u d hb hu hd
    refine ⟨t', place, hkind, ?_⟩
    rw [readInLine_other ((hwhole hb hu).literalStart none) noName ?_ noGap, hread]
    rw [hc, List.drop_succ_cons, List.drop_zero, hcs] at noNumber
    rw [hb]
    rintro (hdigit | ⟨hpoint, hdigit⟩)
    · exact noNumber (.inl hdigit)
    · have hno := (hu.append v).fails (p := Char.isDigit) (fun c => isDigit_separator)
        (by simpa [hpoint] using fun h => noNumber (.inr ⟨hpoint, h⟩))
      rw [List.cons_append, List.drop_succ_cons, List.drop_zero, hno] at hdigit
      cases hdigit

/-- Blanks are passed over again where the same character follows them, or they end a line now. -/
structure GapAgain (s s' : Reader) (c : Char) (cs : Text) (x : Char) (later : Text) : Prop where
  depth : s'.depth = s.depth
  line : s'.atLineStart = s.atLineStart
  again : ∃ w, cs = w ++ x :: later ∧ ∀ depth, (∀ (b : Reader) (later' : Text), b.depth = depth →
      b.rest.text = c :: w ++ x :: later' →
        ∃ place, b.readInLine c = .ok ([], { b with rest := ⟨x :: later', place⟩ })) ∨
    depth = 0 ∧ ∀ (b : Reader) (later' : Text), b.depth = 0 → b.rest.text = c :: w ++ x :: later' →
      ∃ t b', t.kind = .newline ∧ b'.rest.text = x :: later' ∧ b.readInLine c = .ok ([t], b')

/-- What is read at a character that starts no word. -/
theorem readInLine_opensGap (hc : s.rest.text = c :: cs) (hgap : opensGap c) : s.readInLine c =
    if c = '#' then
      let comment := s.rest.text.takeWhile fun c => c ≠ '\n' && c ≠ '\r'
      .ok ([], { s with rest :=
        ⟨s.rest.text.drop comment.length, s.rest.offset + Text.size comment⟩ })
    else if c = '\n' ∨ c = '\r' then
      match s.rest.next? with
      | none => .ok ([], s)
      | some (_, rest) =>
        if s.depth = 0 then
          .ok ([⟨.newline, s.rest.offset, rest.offset⟩], { s with rest, atLineStart := true })
        else .ok ([], { s with rest })
    else if isInnerBlank c then
      .ok ([], { s with rest := s.rest.skip (s.rest.text.takeWhile isInnerBlank).length })
    else s.continueLine := by
  obtain ⟨hliteral, hstart, hdigit, hdot⟩ := gap_apart cs hgap
  have hslash : c ≠ '#' → ¬(c = '\n' ∨ c = '\r') → isInnerBlank c = false → c = '\\' := by
    intro h1 h2 h3
    simpa [opensGap, h1, not_or.mp h2, h3] using hgap
  simp only [readInLine, hc, hliteral, hstart, hdigit, hdot, Bool.false_eq_true, false_and, or_self,
    if_false]
  split
  · rfl
  · rename_i h1
    split
    · rfl
    · rename_i h2
      split
      · rfl
      · rename_i h3
        rw [if_pos (hslash h1 h2 (by simpa using h3))]

theorem Finds.opens_or_word {ts : List Token} (h : Finds s c ts s') :
    opensGap c ∨ ∃ t, ts = [t] ∧ t.kind.isLayout = false := by
  cases h with
  | literal starts read =>
    obtain ⟨l, hl⟩ := readLiteral_literal read
    exact .inr ⟨_, rfl, by rw [hl]; rfl⟩
  | name none starts =>
    refine .inr ⟨_, rfl, ?_⟩
    rcases readName_kind s.rest with ⟨w, hw⟩ | ⟨id, hid⟩
    · rw [hw]
      rfl
    · rw [hid]
      rfl
  | @number t r none noName starts read =>
    refine .inr ⟨t, rfl, ?_⟩
    have hkind := readNumber_isNumber read
    cases hk : t.kind <;> rw [hk] at hkind <;> first | rfl | cases hkind
  | gap opens _ => exact .inl opens
  | symbol none noName noNumber noGap read =>
    obtain ⟨t, rfl, ⟨o, ho⟩ | hid⟩ := readSymbol_word read
    · exact .inr ⟨t, rfl, by rw [ho]; rfl⟩
    · exact .inr ⟨t, rfl, by rw [hid]; rfl⟩

/-- Where no word is read, a gap opens. -/
theorem opensGap_of_layout {ts : List Token} (hc : s.rest.text = c :: cs)
    (h : s.readInLine c = .ok (ts, s')) (hts : ∀ t ∈ ts, t.kind.isLayout = true) : opensGap c := by
  refine (readInLine_finds hc h).opens_or_word.resolve_right ?_
  rintro ⟨t, rfl, hword⟩
  rw [hts t List.mem_cons_self] at hword
  cases hword

/-- A run that ends in a character ends there again. -/
theorem takeWhile_again {p : Char → Bool} {w later later' : Text} {x : Char}
    (h : (w ++ x :: later).drop ((w ++ x :: later).takeWhile p).length = x :: later) :
    (w ++ x :: later').takeWhile p = w := by
  have hw : (w ++ x :: later).takeWhile p = w := by
    have hsplit := takeWhile_append_drop p (w ++ x :: later)
    rw [h] at hsplit
    exact List.append_cancel_right hsplit
  have hall : ∀ c ∈ w, p c = true := by
    rw [← hw]
    exact List.all_eq_true.mp List.all_takeWhile
  rw [List.takeWhile_append_of_pos hall] at hw ⊢
  have hx : p x = false := by
    by_contra hx
    simp [show p x = true by simpa using hx] at hw
  simp [hx]

/-- The blanks between two tokens are passed over again. -/
theorem again_gap {x : Char} {later : Text} (hc : s.rest.text = c :: cs)
    (h : s.readInLine c = .ok ([], s')) (hx : s'.rest.text = x :: later) :
    GapAgain s s' c cs x later := by
  have hgap := opensGap_of_layout hc h (by simp)
  obtain ⟨w₀, hw₀, hpast⟩ := (readInLine_took hc h).passes
  obtain ⟨c', v, rfl⟩ := List.exists_cons_of_ne_nil hw₀
  have htext := hpast.text
  rw [hx] at htext
  obtain ⟨rfl, hcs⟩ := List.cons.inj (hc.symm.trans htext)
  have hnext {r r' : Rest} {d : Char} {w : Text} (hr : r.text = w ++ x :: later)
      (h : r.next? = some (d, r')) (hr' : r'.text = x :: later) (later' : Text) (offset : Nat) :
      ∃ place, Rest.next? ⟨w ++ x :: later', offset⟩ = some (d, ⟨x :: later', place⟩) := by
    obtain ⟨w', -, hw', hagain⟩ := Rest.next?_ahead h
    rw [hr'] at hw'
    obtain rfl := List.append_cancel_right (hr.symm.trans hw')
    exact hagain (x :: later') offset (by rw [hr']; rfl)
  rw [readInLine_opensGap hc hgap] at h
  split at h
  · rename_i hcomment
    obtain ⟨-, rfl⟩ := Prod.mk.inj (Except.ok.inj h)
    refine ⟨rfl, rfl, v, hcs, fun depth => .inl fun b later' _ hb => ?_⟩
    simp only [htext] at hx
    refine ⟨b.rest.offset + size (c :: v), ?_⟩
    rw [readInLine_opensGap hb hgap, if_pos hcomment]
    simp only [hb, takeWhile_again hx, List.drop_left]
  · rename_i hcomment
    split at h
    · rename_i hend
      split at h
      · rename_i hnone
        rw [hasText hc] at hnone
        exact absurd hnone (next_ne_none _ _ _)
      · rename_i d r hd
        split at h
        · cases h
        · obtain ⟨-, rfl⟩ := Prod.mk.inj (Except.ok.inj h)
          have hagain (b : Reader) (later' : Text) (hb : b.rest.text = c :: v ++ x :: later') :
              ∃ place, b.readInLine c = if b.depth = 0 then
                  .ok ([⟨.newline, b.rest.offset, place⟩],
                    { b with rest := ⟨x :: later', place⟩, atLineStart := true })
                else .ok ([], { b with rest := ⟨x :: later', place⟩ }) := by
            obtain ⟨place, hread⟩ := hnext htext hd hx later' b.rest.offset
            rw [← hasText hb] at hread
            refine ⟨place, ?_⟩
            rw [readInLine_opensGap hb hgap, if_neg hcomment, if_pos hend, hread]
          refine ⟨rfl, rfl, v, hcs, fun depth => ?_⟩
          by_cases hdepth : depth = 0
          · refine .inr ⟨hdepth, fun b later' hzero hb => ?_⟩
            obtain ⟨place, hread⟩ := hagain b later' hb
            exact ⟨_, _, rfl, rfl, hread.trans (if_pos hzero)⟩
          · refine .inl fun b later' hsame hb => ?_
            obtain ⟨place, hread⟩ := hagain b later' hb
            exact ⟨place, hread.trans (if_neg (hsame ▸ hdepth))⟩
    · rename_i hend
      split at h
      · rename_i hblank
        obtain ⟨-, rfl⟩ := Prod.mk.inj (Except.ok.inj h)
        refine ⟨rfl, rfl, v, hcs, fun depth => .inl fun b later' _ hb => ?_⟩
        simp only [Rest.skip, htext] at hx
        refine ⟨b.rest.offset + (c :: v).length, ?_⟩
        rw [readInLine_opensGap hb hgap, if_neg hcomment, if_neg hend, if_pos hblank]
        simp only [Rest.skip, hb, takeWhile_again hx, List.drop_left]
      · rename_i hblank
        unfold continueLine at h
        simp only at h
        split at h
        · rename_i r hr
          split at h
          · cases h
          · obtain ⟨-, rfl⟩ := Prod.mk.inj (Except.ok.inj h)
            refine ⟨rfl, rfl, v, hcs, fun depth => .inl fun b later' _ hb => ?_⟩
            have hskip (b : Reader) {u : Text} (hb : b.rest.text = c :: v ++ u) :
                b.rest.skip 1 = ⟨v ++ u, b.rest.offset + 1⟩ := by
              simp [Rest.skip, hb]
            rw [hskip s htext] at hr
            obtain ⟨place, hread⟩ := hnext rfl hr hx later' (b.rest.offset + 1)
            refine ⟨place, ?_⟩
            rw [readInLine_opensGap hb hgap, if_neg hcomment, if_neg hend, if_neg hblank]
            simp [continueLine, hskip b hb, hread]
        · cases h

end Pagewright.Syntax.Reader
