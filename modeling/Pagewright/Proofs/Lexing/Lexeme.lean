import Pagewright.Proofs.Lexing.Steps
import Pagewright.Proofs.Text.Runs

namespace Pagewright.Syntax

open Text Rest

def Identifier.Valid (id : Text) : Prop :=
  ∃ c cs, id = c :: cs ∧ Identifier.isStart c = true ∧ ∀ d ∈ cs, Identifier.isPart d = true

instance (id : Text) : Decidable (Identifier.Valid id) :=
  match id with
  | [] => isFalse (by rintro ⟨c, cs, h, -⟩; simp at h)
  | c :: cs =>
    decidable_of_iff (Identifier.isStart c = true ∧ cs.all Identifier.isPart = true)
      ⟨fun h => ⟨c, cs, rfl, h.1, List.all_eq_true.mp h.2⟩,
        by rintro ⟨d, ds, h, hv⟩; cases h; exact ⟨hv.1, List.all_eq_true.mpr hv.2⟩⟩

def Operator.goesOn (o : Operator) (c : Char) : Bool :=
  all.any fun p => (o.text ++ [c]).isPrefixOf p.text

/-- What is written in a line: a word, an operator, a literal on one line, or one space. -/
inductive Lexeme where
  | word (id : Text)
  | symbol (o : Operator)
  | quoted (quote : Char) (content : Text)
  | space
  deriving DecidableEq

namespace Lexeme

def text : Lexeme → Text
  | .word id => id
  | .symbol o => o.text
  | .quoted quote content => quote :: content ++ [quote]
  | .space => [' ']

def wordKind (id : Text) : TokenKind :=
  match Keyword.ofText? id with
  | some w => .keyword w
  | none => .name id

def kinds : Lexeme → List TokenKind
  | .word id => [wordKind id]
  | .symbol o => [.operator o]
  | .quoted _ content => [.literal ⟨.plain, false, false, content⟩]
  | .space => []

def depthAfter (depth : Nat) : Lexeme → Nat
  | .symbol o => if o.opens then depth + 1 else if o.closes then depth - 1 else depth
  | _ => depth

def isHeld (quote c : Char) : Bool :=
  c ≠ quote && c ≠ '\\' && c ≠ '\n' && c ≠ '\r'

/-- Whether a lexeme is well formed at a depth. -/
def IsSound (depth : Nat) : Lexeme → Prop
  | .word id => Identifier.Valid id
  | .symbol o => o.closes = true → 0 < depth
  | .quoted quote content => isQuote quote = true ∧ ∀ c ∈ content, isHeld quote c = true
  | .space => True

instance (depth : Nat) : (l : Lexeme) → Decidable (l.IsSound depth)
  | .word id => inferInstanceAs (Decidable (Identifier.Valid id))
  | .symbol o => inferInstanceAs (Decidable (o.closes = true → 0 < depth))
  | .quoted quote content =>
    decidable_of_iff (isQuote quote = true ∧ content.all (isHeld quote) = true)
      (and_congr_right fun _ => List.all_eq_true)
  | .space => isTrue trivial

def isApart : Lexeme → Char → Bool
  | .word _, c => !Identifier.isPart c && !isQuote c
  | .symbol o, c => !o.goesOn c && !(o = .dot && c.isDigit)
  | .quoted quote _, c => c ≠ quote
  | .space, c => !Reader.isInnerBlank c

/-- Lexemes one after the other and then a text, each sound and apart from what follows. -/
def Fit (depth : Nat) : List Lexeme → Text → Prop
  | [], _ => True
  | l :: ls, rest =>
    l.IsSound depth ∧ (∀ c ∈ (ls.flatMap text ++ rest).head?, l.isApart c = true) ∧
      Fit (l.depthAfter depth) ls rest

instance decidableFit (depth : Nat) : (ls : List Lexeme) → (rest : Text) → Decidable (Fit depth ls rest)
  | [], _ => isTrue trivial
  | l :: ls, rest =>
    have := decidableFit (l.depthAfter depth) ls rest
    decidable_of_iff (l.IsSound depth ∧ (ls.flatMap text ++ rest).head?.all l.isApart = true ∧
        Fit (l.depthAfter depth) ls rest)
      (and_congr_right fun _ => and_congr_left fun _ => Option.all_eq_true _ _)

end Lexeme
def Operator.before (o : Operator) : List Operator :=
  all.takeWhile (· ≠ o)

theorem Operator.all_eq (o : Operator) : ∃ later, all = o.before ++ o :: later := by
  refine ⟨all.drop (o.before.length + 1), ?_⟩
  cases o <;> rfl

theorem Operator.before_prefix {o p : Operator} (h : p ∈ o.before) :
    p.text.isPrefixOf o.text = false := by
  have hall : all.all (fun o => o.before.all fun p => !p.text.isPrefixOf o.text) = true := by
    decide +kernel
  have ho : o ∈ all := by cases o <;> decide
  have hp := List.all_eq_true.mp (List.all_eq_true.mp hall o ho) p h
  simpa using hp

/-- An operator is read whole where no longer one could go on behind it. -/
theorem Operator.leading_text (o : Operator) {rest : Text}
    (h : ∀ c ∈ rest.head?, o.goesOn c = false) : leading? (o.text ++ rest) = some (o, rest) := by
  obtain ⟨later, hall⟩ := o.all_eq
  have hbefore : o.before.findSome?
      (fun p => (p.text.isPrefixOf? (o.text ++ rest)).map fun r => (p, r)) = none := by
    rw [List.findSome?_eq_none_iff]
    intro p hp
    rw [Option.map_eq_none_iff]
    by_contra hne
    obtain ⟨r, hr⟩ := Option.ne_none_iff_exists'.mp hne
    have hr := List.append_eq_of_isPrefixOf?_eq_some hr
    have hprefix := before_prefix hp
    rcases List.append_eq_append_iff.mp hr with ⟨w, how, -⟩ | ⟨w, hpw, hrest⟩
    · rw [how] at hprefix
      simp [List.isPrefixOf_iff_prefix.mpr (List.prefix_append p.text w)] at hprefix
    · cases w with
      | nil =>
        rw [hpw, List.append_nil, List.isPrefixOf_iff_prefix.mpr (List.prefix_refl _)] at hprefix
        simp at hprefix
      | cons c w =>
        have hg := h c (by simp [hrest])
        have hmem : p ∈ all := by cases p <;> decide
        have hg' : o.goesOn c = true := by
          refine List.any_eq_true.mpr ⟨p, hmem, List.isPrefixOf_iff_prefix.mpr ⟨w, ?_⟩⟩
          simp [hpw]
        rw [hg'] at hg
        simp at hg
  have hself : o.text.isPrefixOf? (o.text ++ rest) = some rest :=
    List.isPrefixOf?_eq_some_iff_append_eq.mpr rfl
  rw [leading?, hall, List.findSome?_append, hbefore, Option.none_or, List.findSome?_cons, hself]
  rfl

/-- No literal starts where no quote stands behind at most two letters. -/
theorem literalStart_none {c : Char} {cs : Text} (hc : isQuote c = false)
    (h1 : ∀ d ∈ cs.head?, isQuote d = true → kindOfLetter? c = none)
    (h2 : ∀ d e, cs.head? = some d → (cs.drop 1).head? = some e → isQuote e = true →
      kindOfLetters? c d = none) : literalStart? (c :: cs) = none := by
  unfold literalStart?
  simp only [hc, Bool.false_eq_true, if_false]
  cases cs with
  | nil => rfl
  | cons d ds =>
    simp only
    split
    · rename_i hd
      rw [h1 d rfl hd]
      rfl
    · cases ds with
      | nil => rfl
      | cons e es =>
        by_cases he : isQuote e = true
        · simp [he, h2 d e rfl rfl he]
        · simp [he]

theorem isPart_not_quote {c : Char} (h : Identifier.isPart c = true) : isQuote c = false := by
  by_contra hq
  rcases isQuote_eq (by simpa using hq) with rfl | rfl
  · exact absurd h (by decide)
  · exact absurd h (by decide)

theorem isPart_of_toLower {c d : Char} (h : c.toLower = d) (hd : Identifier.isPart d = true) :
    Identifier.isPart c = true := by
  by_cases hc : c.isUpper = true
  · have hrange : c.val ≥ 'A'.val ∧ c.val ≤ 'Z'.val := of_decide_eq_true hc
    have hlt : c.toNat < 128 :=
      Nat.lt_of_le_of_lt (UInt32.le_iff_toNat_le.mp hrange.2) (by decide)
    have halpha : (c.isUpper || c.isLower || c.isDigit) = true := by
      rw [hc]
      rfl
    have halnum : c.isAlphanum = true := halpha
    simp [Identifier.isPart, hlt, halnum]
  · have hn : ¬(c.val ≥ 'A'.val ∧ c.val ≤ 'Z'.val) := fun h => hc (decide_eq_true h)
    have hsame : c.toLower = c := dif_neg hn
    rw [← hsame, h]
    exact hd

theorem kindOfLetters_part {c d : Char} (h : Identifier.isPart d = false) :
    kindOfLetters? c d = none := by
  unfold kindOfLetters?
  split
  · simp [isPart_of_toLower ‹d.toLower = _› (by decide)] at h
  · simp [isPart_of_toLower ‹d.toLower = _› (by decide)] at h
  · simp [isPart_of_toLower ‹d.toLower = _› (by decide)] at h
  · simp [isPart_of_toLower ‹d.toLower = _› (by decide)] at h
  · rfl

/-- A name apart from what follows starts no literal. -/
theorem literalStart_word {id rest : Text} (hv : Identifier.Valid id)
    (ha : ∀ c ∈ rest.head?, isQuote c = false ∧ Identifier.isPart c = false) :
    literalStart? (id ++ rest) = none := by
  obtain ⟨c, cs, rfl, hc, hcs⟩ := hv
  have hq := isPart_not_quote (isPart_of_isStart hc)
  cases cs with
  | nil =>
    refine literalStart_none hq ?_ ?_
    · intro d hd hdq
      simp [(ha d hd).1] at hdq
    · intro d e hd _ _
      exact kindOfLetters_part (ha d hd).2
  | cons d ds =>
    have hd := isPart_not_quote (hcs d (by simp))
    refine literalStart_none hq ?_ ?_
    · intro d' hd' hdq
      obtain rfl : d = d' := by simpa using hd'
      simp [hd] at hdq
    · intro d' e hd' he heq
      cases ds with
      | nil => simp [(ha e (by simpa using he)).1] at heq
      | cons e' es =>
        obtain rfl : e' = e := by simpa using he
        simp [isPart_not_quote (hcs e' (by simp))] at heq

/-- A literal on one line is read up to its closing quote. -/
theorem readLiteralBody_held {quote : Char} (hq : isQuote quote = true) {content rest : Text}
    (hc : ∀ c ∈ content, Lexeme.isHeld quote c = true) {fuel offset : Nat}
    (hf : content.length < fuel) :
    readLiteralBody quote false fuel ⟨content ++ quote :: rest, offset⟩ =
      .ok (content, ⟨rest, offset + size content + 1⟩) := by
  have hn : quote ≠ '\r' ∧ quote ≠ '\\' ∧ quote ≠ '\n' ∧ quote.utf8Size = 1 := by
    rcases isQuote_eq hq with rfl | rfl <;> exact ⟨by decide, by decide, by decide, rfl⟩
  induction content generalizing fuel offset with
  | nil =>
    obtain ⟨fuel, rfl⟩ : ∃ k, fuel = k + 1 := ⟨fuel - 1, by simp at hf; omega⟩
    simp [readLiteralBody, next_plain hn.1, hn]
  | cons c cs ih =>
    obtain ⟨fuel, rfl⟩ : ∃ k, fuel = k + 1 := ⟨fuel - 1, by simp at hf; omega⟩
    have hheld := hc c (by simp)
    simp only [Lexeme.isHeld, Bool.and_eq_true, decide_eq_true_eq] at hheld
    obtain ⟨⟨⟨h1, h2⟩, h3⟩, h4⟩ := hheld
    have hrest : readLiteralBody quote false fuel ⟨cs ++ quote :: rest, offset + c.utf8Size⟩ =
        .ok (cs, ⟨rest, offset + c.utf8Size + size cs + 1⟩) :=
      ih (fun d hd => hc d (by simp [hd])) (by simp at hf; omega)
    simp only [readLiteralBody, List.cons_append, next_plain h4, h1, h2, h3, if_false, false_and,
      hrest, bind, Except.bind, pure, Except.pure, size_cons, Nat.add_assoc]

/-- A text between two quotes that can stand there as it is is read as itself. -/
theorem readLiteral_held {quote : Char} (hq : isQuote quote = true) {content rest : Text}
    (hc : ∀ c ∈ content, Lexeme.isHeld quote c = true) (hr : ∀ c ∈ rest.head?, c ≠ quote)
    (offset : Nat) :
    readLiteral .plain false 0 ⟨quote :: content ++ quote :: rest, offset⟩ =
      .ok (⟨.literal ⟨.plain, false, false, content⟩, offset, offset + size content + 2⟩,
        ⟨rest, offset + size content + 2⟩) := by
  have ht : [quote, quote, quote].isPrefixOf (quote :: content ++ quote :: rest) = false := by
    cases content with
    | nil =>
      cases rest with
      | nil => simp [List.isPrefixOf]
      | cons c cs =>
        have hne : quote ≠ c := fun h => hr c (by simp) h.symm
        simp [List.isPrefixOf, hne]
    | cons c cs =>
      have hheld := hc c (by simp)
      simp only [Lexeme.isHeld, Bool.and_eq_true, decide_eq_true_eq] at hheld
      have hne : quote ≠ c := fun h => hheld.1.1.1 h.symm
      simp [List.isPrefixOf, hne]
  have hb : readLiteralBody quote false ((content ++ quote :: rest).length + 1)
      ⟨content ++ quote :: rest, offset + 1⟩ =
      .ok (content, ⟨rest, offset + 1 + size content + 1⟩) :=
    readLiteralBody_held hq hc (by rw [List.length_append, List.length_cons]; omega)
  have ho : offset + 1 + size content + 1 = offset + size content + 2 := by omega
  rw [ho] at hb
  unfold readLiteral
  simp only [Rest.skip, List.drop_zero, Nat.add_zero, List.cons_append, List.headD_cons]
  simp only [List.cons_append] at ht
  simp only [ht, Bool.false_eq_true, if_false, List.drop_succ_cons, List.drop_zero, bind,
    Except.bind, pure, Except.pure]
  rw [hb]

theorem kindOfLetter_part {c : Char} (h : Identifier.isPart c = false) : kindOfLetter? c = none := by
  unfold kindOfLetter?
  split
  · simp [isPart_of_toLower ‹c.toLower = _› (by decide)] at h
  · simp [isPart_of_toLower ‹c.toLower = _› (by decide)] at h
  · simp [isPart_of_toLower ‹c.toLower = _› (by decide)] at h
  · simp [isPart_of_toLower ‹c.toLower = _› (by decide)] at h
  · rfl

theorem kindOfLetters_mark {c d : Char} (h : Identifier.isPart c = false) :
    kindOfLetters? c d = none := by
  unfold kindOfLetters?
  split
  · simp [isPart_of_toLower ‹c.toLower = _› (by decide)] at h
  · simp [isPart_of_toLower ‹c.toLower = _› (by decide)] at h
  · simp [isPart_of_toLower ‹c.toLower = _› (by decide)] at h
  · simp [isPart_of_toLower ‹c.toLower = _› (by decide)] at h
  · rfl

theorem literalStart_mark {c : Char} {cs : Text} (hq : isQuote c = false)
    (hp : Identifier.isPart c = false) : literalStart? (c :: cs) = none :=
  literalStart_none hq (fun _ _ _ => kindOfLetter_part hp) (fun _ _ _ _ _ => kindOfLetters_mark hp)

def isMark (c : Char) : Bool :=
  !Identifier.isPart c && !isQuote c && c ≠ '#' && c ≠ '\n' && c ≠ '\r' && c ≠ '\\'
    && !Reader.isInnerBlank c

theorem Operator.text_mark (o : Operator) : ∃ c cs, o.text = c :: cs ∧ isMark c = true ∧
    (c = '.' → o = .dot ∨ cs.head? = some '.') := by
  have h : ∀ o : Operator, o.text.head?.any isMark = true ∧
      (o.text.head? = some '.' → o = .dot ∨ (o.text.drop 1).head? = some '.') := by
    intro o
    cases o <;> decide
  obtain ⟨hm, hd⟩ := h o
  cases ht : o.text with
  | nil => exact absurd ht o.text_narrow.1
  | cons c cs =>
    rw [ht] at hm hd
    exact ⟨c, cs, rfl, by simpa using hm, fun hc => hd (by simp [hc])⟩

theorem isDigit_part {c : Char} (h : c.isDigit = true) : Identifier.isPart c = true := by
  have hlt : c.toNat < 128 := by
    simp only [Char.isDigit, Bool.and_eq_true, decide_eq_true_eq, UInt32.le_iff_toNat_le] at h
    exact Nat.lt_of_le_of_lt h.2 (by decide)
  simp [Identifier.isPart, hlt, Char.isAlphanum, h]

namespace Reader

abbrev inLine (depth : Nat) (blocks : List Indentation) (t : Text) (offset : Nat) : Reader :=
  ⟨⟨t, offset⟩, depth, false, blocks⟩

/-- A character that only operators start with is read as one. -/
theorem readInLine_mark {s : Reader} {c : Char} {cs : Text} (hc : s.rest.text = c :: cs)
    (hm : isMark c = true) (hdot : c = '.' → cs.head?.any Char.isDigit = false) :
    s.readInLine c = s.readSymbol c := by
  simp only [isMark, Bool.and_eq_true, Bool.not_eq_true', decide_eq_true_eq] at hm
  obtain ⟨⟨⟨⟨⟨⟨hp, hq⟩, h1⟩, h2⟩, h3⟩, h4⟩, hb⟩ := hm
  have hstart : Identifier.isStart c = false := by
    by_contra h
    simp [isPart_of_isStart (by simpa using h)] at hp
  have hdigit : c.isDigit = false := by
    by_contra h
    simp [isDigit_part (by simpa using h)] at hp
  have hnum : ¬(c.isDigit = true ∨ (c = '.' ∧ cs.head?.any Char.isDigit = true)) := by
    rintro (h | ⟨hc, h⟩)
    · simp [hdigit] at h
    · simp [hdot hc] at h
  unfold readInLine
  simp only [hc, literalStart_mark hq hp, hstart, Bool.false_eq_true, if_false,
    List.drop_succ_cons, List.drop_zero, hnum, h1, h2, h3, h4, hb, or_self]

/-- An operator apart from what follows is read where it stands. -/
theorem readInLine_operator {s : Reader} {o : Operator} {rest : Text}
    (hs : s.rest.text = o.text ++ rest)
    (ha : ∀ c ∈ rest.head?, (Lexeme.symbol o).isApart c = true) :
    ∃ c cs, o.text ++ rest = c :: cs ∧ s.readInLine c = s.readSymbol c ∧
      Operator.leading? s.rest.text = some (o, rest) := by
  obtain ⟨c, cs, ht, hm, hdot⟩ := o.text_mark
  have hlead : Operator.leading? (o.text ++ rest) = some (o, rest) := by
    refine o.leading_text fun d hd => ?_
    have h := ha d hd
    simp only [Lexeme.isApart, Bool.and_eq_true, Bool.not_eq_true'] at h
    exact h.1
  have hnum : c = '.' → (cs ++ rest).head?.any Char.isDigit = false := by
    intro hc
    rcases hdot hc with rfl | hd
    · obtain rfl : cs = [] := by simpa [Operator.text, hc] using ht.symm
      cases rest with
      | nil => rfl
      | cons d ds =>
        have h := ha d (by simp)
        simp only [Lexeme.isApart, Bool.and_eq_true, Bool.not_eq_true'] at h
        simpa using h.2
    · cases cs with
      | nil => simp at hd
      | cons d ds =>
        obtain rfl : d = '.' := by simpa using hd
        rfl
  have htext : o.text ++ rest = c :: (cs ++ rest) := by rw [ht, List.cons_append]
  exact ⟨c, cs ++ rest, htext, readInLine_mark (hs.trans htext) hm hnum, hs ▸ hlead⟩

/-- An operator or a bracket is read whole and counted among the open brackets. -/
theorem readInLine_symbol {o : Operator} {depth : Nat} (offset : Nat) (blocks : List Indentation)
    {rest : Text} (hs : (Lexeme.symbol o).IsSound depth)
    (ha : ∀ c ∈ rest.head?, (Lexeme.symbol o).isApart c = true) :
    ∃ c cs, o.text ++ rest = c :: cs ∧
      (inLine depth blocks (o.text ++ rest) offset).readInLine c =
        .ok ([⟨.operator o, offset, offset + o.text.length⟩],
          inLine ((Lexeme.symbol o).depthAfter depth) blocks rest (offset + o.text.length)) := by
  obtain ⟨c, cs, htext, hread, hlead⟩ :=
    readInLine_operator (s := inLine depth blocks (o.text ++ rest) offset) rfl ha
  refine ⟨c, cs, htext, ?_⟩
  rw [hread]
  unfold readSymbol
  simp only [hlead, Lexeme.depthAfter]
  split
  · rfl
  · split
    · rename_i hclose
      have hpos := hs hclose
      rw [if_neg (by omega)]
    · rfl

theorem takeWhile_valid {id rest : Text} (hv : Identifier.Valid id)
    (hr : ∀ c ∈ rest.head?, Identifier.isPart c = false) :
    (id ++ rest).takeWhile Identifier.isPart = id ∧
      (id ++ rest).dropWhile Identifier.isPart = rest := by
  obtain ⟨c, cs, rfl, hc, hcs⟩ := hv
  have hid : ∀ d ∈ c :: cs, Identifier.isPart d = true := by
    simpa using ⟨isPart_of_isStart hc, hcs⟩
  exact IsRun.takeWhile_eq ⟨hid, hr⟩

/-- A name or a keyword is read whole where no letter follows. -/
theorem readInLine_word {id : Text} {depth : Nat} (offset : Nat) (blocks : List Indentation)
    {rest : Text} (hs : Identifier.Valid id)
    (ha : ∀ c ∈ rest.head?, (Lexeme.word id).isApart c = true) :
    ∃ c cs, id ++ rest = c :: cs ∧
      (inLine depth blocks (id ++ rest) offset).readInLine c =
        .ok ([⟨Lexeme.wordKind id, offset, offset + size id⟩],
          inLine depth blocks rest (offset + size id)) := by
  have ha' : ∀ c ∈ rest.head?, isQuote c = false ∧ Identifier.isPart c = false := by
    intro c hc
    have h := ha c hc
    simp only [Lexeme.isApart, Bool.and_eq_true, Bool.not_eq_true'] at h
    exact ⟨h.2, h.1⟩
  have hlit := literalStart_word hs ha'
  obtain ⟨htake, hdrop⟩ := takeWhile_valid hs fun c hc => (ha' c hc).2
  obtain ⟨c, cs, rfl, hc, -⟩ := hs
  refine ⟨c, cs ++ rest, rfl, ?_⟩
  unfold readInLine
  simp only [hlit, hc, if_true, readName, htake, hdrop]
  rfl

/-- A text between quotes is read as one literal. -/
theorem readInLine_quoted {quote : Char} {content : Text} {depth : Nat} (offset : Nat)
    (blocks : List Indentation) {rest : Text}
    (hs : (Lexeme.quoted quote content).IsSound depth)
    (ha : ∀ c ∈ rest.head?, (Lexeme.quoted quote content).isApart c = true) :
    (inLine depth blocks (quote :: content ++ quote :: rest) offset).readInLine quote =
      .ok ([⟨.literal ⟨.plain, false, false, content⟩, offset, offset + size content + 2⟩],
        inLine depth blocks rest (offset + size content + 2)) := by
  have hr := readLiteral_held hs.1 hs.2 (fun c hc => by simpa [Lexeme.isApart] using ha c hc) offset
  have hlit : literalStart? (quote :: content ++ quote :: rest) = some (.plain, false, 0) := by
    simp [literalStart?, hs.1]
  unfold readInLine
  simp only [hlit, hr, bind, Except.bind, pure, Except.pure]

/-- A blank inside a line gives no token. -/
theorem readInLine_space (depth offset : Nat) (blocks : List Indentation) {rest : Text}
    (ha : ∀ c ∈ rest.head?, isInnerBlank c = false) :
    (inLine depth blocks (' ' :: rest) offset).readInLine ' ' =
      .ok ([], inLine depth blocks rest (offset + 1)) := by
  have hlit : literalStart? (' ' :: rest) = none := literalStart_mark rfl (by decide)
  have htake : (' ' :: rest).takeWhile isInnerBlank = [' '] := by
    cases rest with
    | nil => rfl
    | cons c cs =>
      have hc := ha c (by simp)
      rw [List.takeWhile_cons_of_pos rfl, List.takeWhile_cons_of_neg (by simp [hc])]
  have hstart : Identifier.isStart ' ' = false := by decide
  have hblank : isInnerBlank ' ' = true := rfl
  unfold readInLine
  simp only [hlit, hstart, htake, hblank]
  rfl

/-- A run of steps whose tokens have given kinds. -/
def Spells (s : Reader) (ks : List TokenKind) (s' : Reader) : Prop :=
  ∃ ts, Reads s ts s' ∧ ts.map (·.kind) = ks

theorem Spells.refl (s : Reader) : Spells s [] s :=
  ⟨[], .done s, rfl⟩

theorem Spells.trans {s s' s'' : Reader} {ks ks' : List TokenKind} (h : Spells s ks s')
    (h' : Spells s' ks' s'') : Spells s (ks ++ ks') s'' := by
  obtain ⟨ts, hr, rfl⟩ := h
  obtain ⟨ts', hr', rfl⟩ := h'
  exact ⟨ts ++ ts', hr.trans hr', by simp⟩

theorem spells_item {s s' : Reader} {c : Char} {cs : Text} {ts : List Token}
    (hs : s.atLineStart = false) (ht : s.rest.text = c :: cs)
    (h : s.readInLine c = .ok (ts, s')) : Spells s (ts.map (·.kind)) s' := by
  have hstep : Step s ts s' := ⟨[], s, c, cs, ts, by simp [enter, hs], ht, h, by simp⟩
  exact ⟨ts, by simpa using Reads.step hstep (.done s'), rfl⟩

/-- A sound lexeme is read as the tokens it stands for, whatever may follow it. -/
theorem spells_lexeme {l : Lexeme} {depth : Nat} (offset : Nat) (blocks : List Indentation)
    {rest : Text} (hs : l.IsSound depth) (ha : ∀ c ∈ rest.head?, l.isApart c = true) :
    Spells (inLine depth blocks (l.text ++ rest) offset) l.kinds
      (inLine (l.depthAfter depth) blocks rest (offset + size l.text)) := by
  cases l with
  | word id =>
    obtain ⟨c, cs, ht, hr⟩ := readInLine_word offset blocks hs ha
    exact spells_item rfl ht hr
  | symbol o =>
    obtain ⟨c, cs, ht, hr⟩ := readInLine_symbol offset blocks hs ha
    have ho : size o.text = o.text.length := size_narrow o.text_narrow.2
    have h := spells_item rfl ht hr
    rw [← ho] at h
    exact h
  | quoted quote content =>
    have hr := readInLine_quoted offset blocks hs ha
    have h := spells_item rfl rfl hr
    have hq : quote.utf8Size = 1 := isNarrow_of_isQuote hs.1
    have hsize : offset + size (Lexeme.quoted quote content).text = offset + size content + 2 := by
      simp [Lexeme.text, hq]
      omega
    rw [hsize]
    simpa [Lexeme.text, Lexeme.kinds, Lexeme.depthAfter] using h
  | space =>
    have hr := readInLine_space depth offset blocks fun c hc => by simpa [Lexeme.isApart] using ha c hc
    exact spells_item rfl rfl hr

def depthAfter (depth : Nat) (ls : List Lexeme) : Nat :=
  ls.foldl Lexeme.depthAfter depth

/-- Lexemes that fit give their tokens. -/
theorem spells_lexemes {ls : List Lexeme} {depth : Nat} (offset : Nat)
    (blocks : List Indentation) {rest : Text} (h : Lexeme.Fit depth ls rest) :
    Spells (inLine depth blocks (ls.flatMap Lexeme.text ++ rest) offset) (ls.flatMap Lexeme.kinds)
      (inLine (depthAfter depth ls) blocks rest (offset + size (ls.flatMap Lexeme.text))) := by
  induction ls generalizing depth offset with
  | nil => exact .refl _
  | cons l ls ih =>
    obtain ⟨hs, ha, hf⟩ := h
    have h1 := spells_lexeme offset blocks hs ha
    have h2 := ih (offset + size l.text) hf
    have ht := h1.trans h2
    simpa [depthAfter, Nat.add_assoc] using ht

end Reader
end Pagewright.Syntax
