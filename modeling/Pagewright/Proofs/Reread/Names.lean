import Pagewright.Proofs.Grammar.Line
import Pagewright.Proofs.Reread.Segments

namespace Pagewright.Syntax

open Text

/-- The words that are names where no statement of theirs starts. -/
def softWords : List Keyword :=
  [.matchWord, .caseWord, .typeWord]

/-- A name that is no word of the language everywhere. -/
def Identifier.IsFree (id : Text) : Prop :=
  ∀ w, Keyword.ofText? id = some w → w ∈ softWords

theorem Keyword.text_of_ofText {id : Text} {w : Keyword} (h : Keyword.ofText? id = some w) :
    w.text = id := by
  simpa using List.find?_some h

namespace Reader

variable {s s' : Reader} {c : Char} {cs : Text} {t : Token}

/-- A name that is read is no keyword. -/
theorem readInLine_free (hc : s.rest.text = c :: cs) (h : s.readInLine c = .ok ([t], s')) {id : Text}
    (hid : t.kind = .name id) : Keyword.ofText? id = none := by
  generalize hts : [t] = ts at h
  cases readInLine_finds hc h with
  | literal starts read =>
    obtain rfl := List.singleton_injective hts
    obtain ⟨l, hkind⟩ := readLiteral_literal read
    rw [hkind] at hid
    cases hid
  | name none starts =>
    obtain rfl := List.singleton_injective hts
    simp only [readName] at hid
    split at hid
    · cases hid
    · rename_i hnone
      obtain rfl := TokenKind.name.inj hid
      exact hnone
  | number none noName starts read =>
    obtain rfl := List.singleton_injective hts
    have hkind := readNumber_isNumber read
    rw [hid] at hkind
    cases hkind
  | gap opens layout =>
    subst hts
    have hkind := layout t (List.mem_singleton_self t)
    rw [hid] at hkind
    cases hkind
  | symbol none noName noNumber noGap read =>
    subst hts
    obtain ⟨t', ht, ⟨o, ho⟩ | hname⟩ := readSymbol_word read
    · obtain rfl := List.singleton_injective ht
      rw [ho] at hid
      cases hid
    · obtain rfl := List.singleton_injective ht
      obtain rfl := TokenKind.name.inj (hname.symm.trans hid)
      cases hw : Keyword.ofText? [c] with
      | none => rfl
      | some w =>
        have hlong : w.text.length ≠ 1 := by cases w <;> decide
        exact absurd (by rw [Keyword.text_of_ofText hw]; rfl) hlong

end Reader

/-- The names of a text are no words of the language, but for the soft ones. -/
theorem Stream.ofText_free {t : Text} {offset : Nat} {lineStart : Bool} {x : Token}
    (hx : x ∈ (Stream.ofText t offset lineStart).tokens) {id : Text} (hid : x.kind = .name id) :
    Identifier.IsFree id := by
  obtain ⟨u, hu, hsame⟩ := mem_soften hx
  have hkind : u.kind = .name id ∨ ∃ w ∈ softWords, w.text = id := by
    rcases hsame with rfl | rfl
    · exact .inl hid
    · obtain ⟨k, start, stop⟩ := u
      cases k with
      | name id' => exact .inl hid
      | keyword w => cases w <;> first | cases hid; exact .inr ⟨_, by decide, rfl⟩ | cases hid
      | _ => cases hid
  rcases hkind with hkind | ⟨w, hw, rfl⟩
  · obtain ⟨before, after, hall⟩ := List.append_of_mem hu
    obtain ⟨s₁, s₂, -, -, hline, -, ⟨hstep⟩, -⟩ := Reader.run_word hall (by rw [hkind]; rfl)
    obtain ⟨c, cs, hc, hread⟩ := hstep.inLine hline
    intro w hw
    rw [Reader.readInLine_free hc hread hkind] at hw
    cases hw
  · intro w' hw'
    have hsoft : ∀ w ∈ softWords, Keyword.ofText? w.text = some w := by decide
    rw [hsoft w hw] at hw'
    exact Option.some.inj hw' ▸ hw

/-- Pictures are no marks of the language. -/
theorem Identifier.isPicture_wide {c : Char} (h : isPicture c = true) : 128 ≤ c.toNat := by
  have hall : emojiRanges.all (fun range => decide (128 ≤ range.1)) = true := by decide +kernel
  obtain ⟨range, hrange, hin⟩ := List.any_eq_true.mp h
  have hlow := List.all_eq_true.mp hall range hrange
  simp only [decide_eq_true_eq, Bool.and_eq_true] at hlow hin
  omega

namespace Reader

/-- No operator starts beyond ASCII. -/
theorem leading_wide {c : Char} (hc : 128 ≤ c.toNat) (cs : Text) : Operator.leading? (c :: cs) = none := by
  by_contra hsome
  obtain ⟨⟨o, rest⟩, ho⟩ := Option.ne_none_iff_exists'.mp hsome
  have htext := Operator.leading_eq ho
  have hmarks : ∀ o : Operator, o.text.all (fun d => decide (d.toNat < 128)) = true := by
    intro o
    cases o <;> rfl
  obtain ⟨d, ds, hd⟩ := List.exists_cons_of_ne_nil o.text_narrow.1
  have hlow := List.all_eq_true.mp (hmarks o) d (by rw [hd]; exact List.mem_cons_self)
  rw [hd] at htext
  rw [← (List.cons.inj htext).1, decide_eq_true_eq] at hlow
  omega

/-- A picture before a blank is a name of its own. -/
theorem readInLine_picture {c : Char} (hpicture : Identifier.isPicture c = true)
    (hstart : Identifier.isStart c = false) (depth offset : Nat) (blocks : List Indentation)
    (cs : Text) : (inLine depth blocks (c :: ' ' :: cs) offset).readInLine c =
      .ok ([⟨.name [c], offset, offset + c.utf8Size⟩],
        inLine depth blocks (' ' :: cs) (offset + c.utf8Size)) := by
  have hwide := Identifier.isPicture_wide hpicture
  have hne (d : Char) (hd : d.toNat < 128) : c ≠ d := by
    rintro rfl
    omega
  have hquote : isQuote c = false := by
    simp [isQuote, hne '"' (by decide), hne '\'' (by decide)]
  have hliteral : literalStart? (c :: ' ' :: cs) = none := by
    refine literalStart_none hquote (fun d hd hdq => ?_) fun d e hd _ _ => ?_
    · obtain rfl := Option.some.inj hd
      cases hdq
    · obtain rfl := Option.some.inj hd
      exact kindOfLetters_part (by decide)
  have hdigit : c.isDigit = false := by
    by_contra hdigit
    have hnarrow := isDigit_range (by simpa using hdigit)
    omega
  have hblank : isInnerBlank c = false := by
    simp [isInnerBlank, hne ' ' (by decide), hne '\t' (by decide), hne (Char.ofNat 12) (by decide)]
  have hlead := leading_wide hwide (' ' :: cs)
  unfold readInLine readSymbol
  simp only [hliteral, hstart, hdigit, hblank, hlead, hpicture, hne '.' (by decide),
    hne '#' (by decide), hne '\n' (by decide), hne '\r' (by decide), hne '\\' (by decide),
    hne '!' (by decide)]
  rfl

/-- A name in front of a blank. -/
theorem spells_name {id : Text} (hwhole : Identifier.IsWhole id) (hfree : Identifier.IsFree id)
    (depth offset : Nat) (blocks : List Indentation) (rest : Text) :
    ∃ k place, Spells (inLine depth blocks (id ++ ' ' :: rest) offset) [k]
        (inLine depth blocks (' ' :: rest) place) ∧
      (k = .name id ∨ ∃ w ∈ softWords, k = .keyword w ∧ w.text = id) := by
  rcases hwhole with hvalid | ⟨c, rfl, hpicture, hstart⟩
  · have hapart : ∀ d ∈ (' ' :: rest).head?, (Lexeme.word id).isApart d = true := by
      rintro d ⟨⟩
      rfl
    obtain ⟨c, cs, hc, hread⟩ := @readInLine_word id depth offset blocks (' ' :: rest) hvalid hapart
    refine ⟨Lexeme.wordKind id, _, spells_item rfl hc hread, ?_⟩
    unfold Lexeme.wordKind
    cases hw : Keyword.ofText? id with
    | none => exact .inl rfl
    | some w => exact .inr ⟨w, hfree w hw, rfl, Keyword.text_of_ofText hw⟩
  · exact ⟨.name [c], _, spells_item rfl rfl (readInLine_picture hpicture hstart depth offset blocks rest),
      .inl rfl⟩

end Reader

end Pagewright.Syntax
