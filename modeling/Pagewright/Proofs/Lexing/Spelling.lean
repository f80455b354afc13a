import Pagewright.Proofs.Lexing.Written

namespace Pagewright.Syntax

open Text Rest Number

/-- What stands between two tokens: blanks, and then perhaps what a comment or a backslash
starts. -/
def IsGap (t : Text) : Prop :=
  ∃ blanks rest, t = blanks ++ rest ∧ (∀ c ∈ blanks, isBlank c = true) ∧
    ∀ c ∈ rest.head?, c = '#' ∨ c = '\\'

theorem isGap_blank {t : Text} (h : ∀ c ∈ t, isBlank c = true) : IsGap t :=
  ⟨t, [], by simp, h, by simp⟩

theorem isGap_nil : IsGap [] :=
  isGap_blank (by simp)

theorem isGap_mark {c : Char} (h : c = '#' ∨ c = '\\') (t : Text) : IsGap (c :: t) :=
  ⟨[], c :: t, rfl, by simp, by simpa using h⟩

theorem IsGap.append {s t : Text} (hs : IsGap s) (ht : IsGap t) : IsGap (s ++ t) := by
  obtain ⟨blanks, rest, rfl, hblank, hrest⟩ := hs
  cases rest with
  | nil =>
    obtain ⟨blanks', rest', rfl, hblank', hrest'⟩ := ht
    refine ⟨blanks ++ blanks', rest', by simp, fun c hc => ?_, hrest'⟩
    exact (List.mem_append.mp hc).elim (hblank c) (hblank' c)
  | cons c rest => exact ⟨blanks, c :: rest ++ t, by simp, hblank, by simpa using hrest⟩

/-- A gap that is more than blanks has a character that no number has. -/
theorem IsGap.blank_or_foreign {t : Text} (h : IsGap t) :
    (∀ c ∈ t, isBlank c = true) ∨ ∃ c ∈ t, isForeign c = true := by
  obtain ⟨blanks, rest, rfl, hblank, hrest⟩ := h
  cases rest with
  | nil => exact .inl (by simpa using hblank)
  | cons c rest =>
    refine .inr ⟨c, by simp, ?_⟩
    rcases hrest c rfl with rfl | rfl <;> decide

/-- A kind as the reader gives it, or that of a word that is made a name. -/
def TokenKind.Softens (k read : TokenKind) : Prop :=
  k = read ∨ ∃ word, read = .keyword word ∧ k = .name word.text

/-- A token is what the reader gives inside a line between two places. -/
def Token.IsRead (t : Token) (r r' : Rest) : Prop :=
  ∃ (s s' : Reader) (c : Char) (cs : Text) (kind : TokenKind), s.rest = r ∧ s'.rest = r' ∧
    r.text = c :: cs ∧ s.readInLine c = .ok ([{ t with kind }], s') ∧ t.kind.Softens kind

/-- Tokens as they are written in the rest of a text, one after the other. -/
inductive Spelled : Rest → List Token → Prop where
  | done {r : Rest} : Spelled r []
  | layout {r r' : Rest} {t : Token} {ts : List Token} (kind : t.kind.isLayout = true)
    (reaches : Reaches r r') (stop : t.stop = r'.offset) (later : Spelled r' ts) :
    Spelled r (t :: ts)
  | word {r r' r'' : Rest} {gap w : Text} {t : Token} {ts : List Token} (isGap : IsGap gap)
    (before : Past r gap r') (nonempty : w ≠ []) (past : Past r' w r'')
    (start : t.start = r'.offset) (stop : t.stop = r''.offset) (written : t.kind.IsWritten w)
    (isRead : t.IsRead r' r'') (later : Spelled r'' ts) : Spelled r (t :: ts)

theorem Spelled.gap {r r' : Rest} {gap : Text} {ts : List Token} (h : Spelled r' ts)
    (hr : Past r gap r') (hg : IsGap gap) : Spelled r ts := by
  cases h with
  | done => exact .done
  | layout kind reaches stop later =>
    exact .layout kind (Reaches.trans ⟨gap, hr⟩ reaches) stop later
  | word isGap before nonempty past start stop written isRead later =>
    exact .word (hg.append isGap) (hr.trans before) nonempty past start stop written isRead later

theorem isBlank_lineEnd {c : Char} (h : c = '\n' ∨ c = '\r') : isBlank c = true := by
  rcases h with rfl | rfl <;> decide

/-- The end of a line is blank. -/
theorem next_lineEnd {c d : Char} {cs : Text} {offset : Nat} {r' : Rest} (hc : c = '\n' ∨ c = '\r')
    (h : next? ⟨c :: cs, offset⟩ = some (d, r')) :
    ∃ w, Past ⟨c :: cs, offset⟩ w r' ∧ ∀ x ∈ w, isBlank x = true := by
  unfold next? at h
  split at h
  · cases h
  · rename_i heq
    obtain ⟨-, rfl⟩ := Prod.mk.inj (Option.some.inj h)
    obtain ⟨ht, rfl⟩ := Rest.mk.inj heq
    obtain ⟨rfl, rfl⟩ := List.cons.inj ht
    exact ⟨['\r', '\n'], ⟨rfl, rfl⟩, fun x hx => isBlank_lineEnd (by simpa [or_comm] using hx)⟩
  · rename_i heq
    obtain ⟨-, rfl⟩ := Prod.mk.inj (Option.some.inj h)
    obtain ⟨ht, rfl⟩ := Rest.mk.inj heq
    obtain ⟨rfl, rfl⟩ := List.cons.inj ht
    exact ⟨[c], ⟨rfl, by simp⟩, by simpa using isBlank_lineEnd hc⟩

namespace Reader

/-- What reading inside a line gives: nothing for a gap, the end of a line, or the token of a
word. -/
inductive Item (s : Reader) : List Token → Reader → Prop where
  | gap {s' : Reader} {g : Text} (isGap : IsGap g) (past : Past s.rest g s'.rest) : Item s [] s'
  | newline {s' : Reader} {t : Token} (kind : t.kind.isLayout = true)
    (reaches : Reaches s.rest s'.rest) (stop : t.stop = s'.rest.offset) : Item s [t] s'
  | word {s' : Reader} {t : Token} {w : Text} (nonempty : w ≠ []) (past : Past s.rest w s'.rest)
    (start : t.start = s.rest.offset) (stop : t.stop = s'.rest.offset)
    (written : t.kind.IsWritten w) : Item s [t] s'

theorem item_of_written {s s' : Reader} {t : Token} (hc : t.Covers s.rest s'.rest)
    (h : ∃ w, Past s.rest w s'.rest ∧ t.kind.IsWritten w) : Item s [t] s' := by
  obtain ⟨hstart, hstop, hpasses⟩ := hc
  obtain ⟨w, hw, hwritten⟩ := h
  refine .word ?_ hw hstart hstop hwritten
  rintro rfl
  have hoffset := hw.offset
  have hlt := hpasses.offset_lt
  simp at hoffset
  omega

theorem readSymbol_item {s s' : Reader} {c : Char} {cs : Text} {ts : List Token}
    (hc : s.rest.text = c :: cs) (h : s.readSymbol c = .ok (ts, s')) : Item s ts s' := by
  unfold readSymbol at h
  split at h
  · rename_i o text ho
    obtain ⟨hn, hw⟩ := o.text_narrow
    have hp : Past s.rest o.text ⟨text, s.rest.offset + o.text.length⟩ :=
      ⟨Operator.leading_eq ho, by rw [size_narrow hw]⟩
    have hitem (depth : Nat) : Item s [⟨.operator o, s.rest.offset, s.rest.offset + o.text.length⟩]
        { s with rest := ⟨text, s.rest.offset + o.text.length⟩, depth } :=
      .word hn hp rfl rfl rfl
    dsimp only at h
    split at h
    · obtain ⟨rfl, rfl⟩ := Prod.mk.inj (Except.ok.inj h)
      exact hitem _
    · split at h
      · split at h
        · cases h
        · obtain ⟨rfl, rfl⟩ := Prod.mk.inj (Except.ok.inj h)
          exact hitem _
      · obtain ⟨rfl, rfl⟩ := Prod.mk.inj (Except.ok.inj h)
        exact hitem _
  · split at h
    · cases h
    · split at h
      · obtain ⟨rfl, rfl⟩ := Prod.mk.inj (Except.ok.inj h)
        exact .word (w := [c]) (by simp) ⟨by simp [hc], by simp⟩ rfl rfl rfl
      · cases h

theorem isBlank_inner {c : Char} (h : isInnerBlank c = true) : isBlank c = true := by
  have hc : c = ' ' ∨ c = '\t' ∨ c = Char.ofNat 12 := by
    simpa [isInnerBlank, or_assoc] using h
  rcases hc with rfl | rfl | rfl <;> decide

theorem continueLine_item {s s' : Reader} {cs : Text} {ts : List Token}
    (hc : s.rest.text = '\\' :: cs) (h : s.continueLine = .ok (ts, s')) : Item s ts s' := by
  obtain ⟨w, hne, hw⟩ := (continueLine_took hc h).passes
  obtain ⟨c, cs', rfl⟩ := List.exists_cons_of_ne_nil hne
  obtain rfl : '\\' = c := (List.cons.inj (hc.symm.trans hw.text)).1
  unfold continueLine at h
  dsimp only at h
  split at h
  · split at h
    · cases h
    · obtain ⟨rfl, rfl⟩ := Prod.mk.inj (Except.ok.inj h)
      exact .gap (isGap_mark (.inr rfl) _) hw
  · cases h

/-- Inside a line either one token is read from its word, or a gap is passed over. -/
theorem readInLine_item {s s' : Reader} {c : Char} {cs : Text} {ts : List Token}
    (hc : s.rest.text = c :: cs) (h : s.readInLine c = .ok (ts, s')) : Item s ts s' := by
  have htook := readInLine_took hc h
  have hcovers {t : Token} {rest : Rest} (ht : [t] = ts) (hr : { s with rest } = s') :
      t.Covers s.rest rest := by
    rcases htook.tokens with rfl | ⟨t', rfl, ht'⟩
    · cases ht
    · cases ht
      subst hr
      exact ht'
  have hrest : s.rest = ⟨c :: cs, s.rest.offset⟩ := by rw [← hc]
  unfold readInLine at h
  split at h
  · rename_i hl
    simp only [bind, Except.bind, pure, Except.pure] at h
    split at h
    · cases h
    · rename_i v hv
      obtain ⟨ht, hs⟩ := Prod.mk.inj (Except.ok.inj h)
      rw [← ht, ← hs]
      exact item_of_written (hcovers ht hs) (readLiteral_written hl hv)
  · split at h
    · rename_i hstart
      obtain ⟨ht, hs⟩ := Prod.mk.inj (Except.ok.inj h)
      rw [← ht, ← hs]
      refine item_of_written (hcovers ht hs) ?_
      simp only
      rw [hrest]
      exact readName_written _ _ _
    · split at h
      · rename_i hd
        simp only [bind, Except.bind, pure, Except.pure] at h
        split at h
        · cases h
        · rename_i v hv
          obtain ⟨ht, hs⟩ := Prod.mk.inj (Except.ok.inj h)
          rw [← ht, ← hs]
          refine item_of_written (hcovers ht hs) (readNumber_written ?_ hv)
          simpa [hc] using hd
      · split at h
        · subst c
          obtain ⟨rfl, rfl⟩ := Prod.mk.inj (Except.ok.inj h)
          refine .gap ?_ ⟨(takeWhile_append_drop _ _).symm, rfl⟩
          rw [hc, List.takeWhile_cons_of_pos (by decide)]
          exact isGap_mark (.inl rfl) _
        · split at h
          · rename_i hend
            split at h
            · rename_i hn
              rw [hrest] at hn
              exact absurd hn (next_ne_none _ _ _)
            · rename_i rest hn
              split at h
              · obtain ⟨rfl, rfl⟩ := Prod.mk.inj (Except.ok.inj h)
                exact .newline rfl (next_passes hn).reaches rfl
              · obtain ⟨rfl, rfl⟩ := Prod.mk.inj (Except.ok.inj h)
                rw [hrest] at hn
                obtain ⟨w, hw, hblank⟩ := next_lineEnd hend hn
                rw [← hrest] at hw
                exact .gap (isGap_blank hblank) hw
          · split at h
            · obtain ⟨rfl, rfl⟩ := Prod.mk.inj (Except.ok.inj h)
              have hblank : ∀ x ∈ s.rest.text.takeWhile isInnerBlank, isInnerBlank x = true :=
                List.all_eq_true.mp List.all_takeWhile
              refine .gap (isGap_blank fun x hx => isBlank_inner (hblank x hx)) ⟨?_, ?_⟩
              · exact (takeWhile_append_drop _ _).symm
              · rw [size_narrow fun x hx => isNarrow_of_isInnerBlank (hblank x hx)]
                rfl
            · split at h
              · subst c
                exact continueLine_item hc h
              · exact readSymbol_item hc h

end Reader

/-- What stands before the first token of a line is a gap. -/
theorem readMargin_gap {t : Text} {offset : Nat} {own : Indentation} {comment : Bool} {m : Margin}
    (h : readMargin t offset own comment = .ok m) :
    ∃ w, Past ⟨t, offset⟩ w m.rest ∧ (comment = false → IsGap w) := by
  induction t generalizing offset own comment with
  | nil =>
    obtain rfl := Except.ok.inj h
    exact ⟨[], .refl _, fun _ => isGap_nil⟩
  | cons c cs ih =>
    -- A blank character goes before the rest of the gap.
    have hblank {own' : Indentation} (hc : isBlank c = true) (hs : c.utf8Size = 1)
        (h : readMargin cs (offset + 1) own' false = .ok m) :
        ∃ w, Past ⟨c :: cs, offset⟩ w m.rest ∧ (comment = false → IsGap w) := by
      obtain ⟨w, hw, hgap⟩ := ih h
      have h1 : Past ⟨c :: cs, offset⟩ [c] ⟨cs, offset + 1⟩ := ⟨rfl, by simp [hs]⟩
      exact ⟨[c] ++ w, h1.trans hw, fun _ => IsGap.append (isGap_blank (by simpa using hc)) (hgap rfl)⟩
    unfold readMargin at h
    split at h
    · rename_i hc
      exact hblank (isBlank_lineEnd hc) (by rcases hc with rfl | rfl <;> rfl) h
    · split at h
      · rename_i hcomment
        obtain ⟨w, hw, -⟩ := ih h
        have h1 : Past ⟨c :: cs, offset⟩ [c] ⟨cs, offset + c.utf8Size⟩ := ⟨rfl, by simp⟩
        exact ⟨[c] ++ w, h1.trans hw, fun hf => absurd hcomment (by simp [hf])⟩
      · split at h
        · subst c
          exact hblank (by decide) rfl h
        · split at h
          · subst c
            split at h
            · cases h
            · exact hblank (by decide) rfl h
          · split at h
            · subst c
              obtain ⟨w, hw, -⟩ := ih h
              have h1 : Past ⟨'#' :: cs, offset⟩ ['#'] ⟨cs, offset + 1⟩ := ⟨rfl, rfl⟩
              exact ⟨['#'] ++ w, h1.trans hw, fun _ => isGap_mark (.inl rfl) _⟩
            · split at h
              · subst c
                exact hblank (by decide) rfl h
              · obtain rfl := Except.ok.inj h
                exact ⟨[], .refl _, fun _ => isGap_nil⟩

theorem spelled_layout {r r' : Rest} {ts later : List Token} (hr : Reaches r r')
    (hts : ∀ t ∈ ts, t.kind.isLayout = true ∧ t.stop = r'.offset) (hne : ts ≠ [])
    (h : Spelled r' later) : Spelled r (ts ++ later) := by
  induction ts generalizing r with
  | nil => exact absurd rfl hne
  | cons t ts ih =>
    obtain ⟨hkind, hstop⟩ := hts t (by simp)
    refine .layout hkind hr hstop ?_
    cases ts with
    | nil => exact h
    | cons t' ts => exact ih (.refl _) (fun x hx => hts x (by simp [hx])) (by simp)

namespace Reader

/-- The margin of a line puts only tokens without words before those of the line. -/
theorem enterLine_spelled {s s' : Reader} {margin later : List Token}
    (h : s.enterLine = .ok (margin, s')) (hl : Spelled s'.rest later) :
    Spelled s.rest (margin ++ later) := by
  have hreaches := enterLine_reaches h
  unfold enterLine at h
  simp only [bind, Except.bind, pure, Except.pure, throw, throwThe, MonadExceptOf.throw] at h
  split at h
  · cases h
  · rename_i m hm
    obtain ⟨w, hw, hgap⟩ := readMargin_gap hm
    split at h
    · cases h
    · obtain ⟨rfl, rfl⟩ := Prod.mk.inj (Except.ok.inj h)
      exact hl.gap hw (hgap rfl)
    · obtain ⟨rfl, rfl⟩ := Prod.mk.inj (Except.ok.inj h)
      exact spelled_layout hreaches (by simp [TokenKind.isLayout]) (by simp) hl
    · split at h
      · cases h
      · rename_i n kept hclose
        split at h
        · cases h
        · obtain ⟨rfl, rfl⟩ := Prod.mk.inj (Except.ok.inj h)
          cases n with
          | zero => exact hl.gap hw (hgap rfl)
          | succ n =>
            refine spelled_layout hreaches (fun t ht => ?_) (by simp) hl
            rw [List.eq_of_mem_replicate ht]
            exact ⟨rfl, rfl⟩

theorem enter_spelled {s s' : Reader} {margin later : List Token}
    (h : s.enter = .ok (margin, s')) (hl : Spelled s'.rest later) :
    Spelled s.rest (margin ++ later) := by
  unfold enter at h
  split at h
  · exact enterLine_spelled h hl
  · obtain ⟨rfl, rfl⟩ := Prod.mk.inj (Except.ok.inj h)
    exact hl

theorem Item.spelled {s s' : Reader} {c : Char} {cs : Text} {found later : List Token}
    (h : Item s found s') (hc : s.rest.text = c :: cs) (hread : s.readInLine c = .ok (found, s'))
    (hl : Spelled s'.rest later) : Spelled s.rest (found ++ later) := by
  cases h with
  | gap isGap past => exact hl.gap past isGap
  | newline kind reaches stop => exact .layout kind reaches stop hl
  | word nonempty past start stop written =>
    have hread : Token.IsRead _ s.rest s'.rest := ⟨s, s', c, cs, _, rfl, rfl, hc, hread, .inl rfl⟩
    exact .word isGap_nil (.refl _) nonempty past start stop written hread hl

/-- The tokens at the end of a text have no words. -/
theorem finish_spelled (s : Reader) : Spelled s.rest s.finish.tokens := by
  unfold finish
  split
  · exact .done
  · have hlayout (ts : List Token)
        (hts : ∀ t ∈ ts, t.kind.isLayout = true ∧ t.stop = s.rest.offset) :
        Spelled s.rest ts := by
      cases ts with
      | nil => exact .done
      | cons t ts =>
        rw [← List.append_nil (t :: ts)]
        exact spelled_layout (.refl _) hts (by simp) .done
    refine hlayout _ fun t ht => ?_
    rcases List.mem_append.mp ht with ht | ht
    · split at ht
      · cases ht
      · rw [List.mem_singleton.mp ht]
        exact ⟨rfl, rfl⟩
    · rw [List.eq_of_mem_replicate ht]
      exact ⟨rfl, rfl⟩

/-- The tokens that are read from a text are written in it. -/
theorem run_spelled (s : Reader) (n : Nat) : Spelled s.rest (s.run n).tokens := by
  induction n generalizing s with
  | zero => exact .done
  | succ n ih =>
    unfold run
    cases henter : s.enter with
    | error f =>
      unfold enter at henter
      rw [henter]
      exact .done
    | ok p =>
      obtain ⟨margin, inside⟩ := p
      have hspelled (later : List Token) (hl : Spelled inside.rest later) :
          Spelled s.rest (margin ++ later) := enter_spelled henter hl
      unfold enter at henter
      rw [henter]
      simp only
      split
      · exact hspelled _ inside.finish_spelled
      · rename_i c cs hc
        split
        · exact .done
        · rename_i found s' hread
          rw [List.append_assoc]
          exact hspelled _ ((readInLine_item hc hread).spelled hc hread (ih s'))

end Reader

namespace TokenKind

variable {k read : TokenKind}

/-- A word that is made a name is written as before. -/
theorem Softens.isWritten (h : k.Softens read) {w : Text} (hw : read.IsWritten w) :
    k.IsWritten w := by
  rcases h with rfl | ⟨word, rfl, rfl⟩
  · exact hw
  · exact hw

theorem Softens.eq_of_isLayout (h : k.Softens read) (hread : read.isLayout = true) : k = read := by
  rcases h with rfl | ⟨word, rfl, -⟩
  · rfl
  · cases hread

theorem Softens.trans {k' : TokenKind} (h : k'.Softens k) (h' : k.Softens read) :
    k'.Softens read := by
  rcases h with rfl | ⟨word, rfl, rfl⟩
  · exact h'
  · rcases h' with rfl | ⟨word', -, hname⟩
    · exact .inr ⟨word, rfl, rfl⟩
    · cases hname

end TokenKind

/-- Only words become names. -/
theorem soften_cons (lineStart : Bool) (t : Token) (ts : List Token) :
    ∃ kind lineStart', soften lineStart (t :: ts) = { t with kind } :: soften lineStart' ts ∧
      kind.Softens t.kind := by
  obtain ⟨k, start, stop⟩ := t
  refine ⟨_, _, rfl, ?_⟩
  cases k with
  | keyword word =>
    cases word with
    | matchWord | caseWord | typeWord =>
      simp only
      split
      · exact .inl rfl
      · exact .inr ⟨_, rfl, rfl⟩
    | _ => exact .inl rfl
  | _ => exact .inl rfl

/-- Words that are made names are written as before. -/
theorem Spelled.soften {r : Rest} {ts : List Token} (h : Spelled r ts) (lineStart : Bool) :
    Spelled r (soften lineStart ts) := by
  induction h generalizing lineStart with
  | done => exact .done
  | @layout r r' t ts kind reaches stop later ih =>
    obtain ⟨kind', lineStart', hsoften, hsoftens⟩ := soften_cons lineStart t ts
    rw [hsoften, hsoftens.eq_of_isLayout kind]
    exact .layout kind reaches stop (ih _)
  | @word r r' r'' gap w t ts isGap before nonempty past start stop written isRead later ih =>
    obtain ⟨kind', lineStart', hsoften, hsoftens⟩ := soften_cons lineStart t ts
    obtain ⟨s, s', c, cs, kind, hs, hs', hc, hread, hkind⟩ := isRead
    rw [hsoften]
    exact .word isGap before nonempty past start stop (hsoftens.isWritten written)
      ⟨s, s', c, cs, kind, hs, hs', hc, hread, hsoftens.trans hkind⟩ (ih _)

/-- The tokens of a text are written in it. -/
theorem Stream.ofText_spelled (t : Text) (offset : Nat) (isModule : Bool) :
    ∃ r, Reaches ⟨t, offset⟩ r ∧ Spelled r (Stream.ofText t offset isModule).tokens := by
  refine ⟨(Reader.start t offset).rest, ?_, (Reader.run_spelled _ _).soften _⟩
  unfold Reader.start
  split
  · exact ⟨['\uFEFF'], rfl, rfl⟩
  · exact .refl _

end Pagewright.Syntax
