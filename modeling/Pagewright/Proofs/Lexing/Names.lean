import Pagewright.Proofs.Lexing.Lexeme
import Pagewright.Proofs.Lexing.Spelling

namespace Pagewright.Syntax

/-- A name as a backend text has it. -/
def Identifier.IsWhole (id : Text) : Prop :=
  Identifier.Valid id ∨
    ∃ c, id = [c] ∧ Identifier.isPicture c = true ∧ Identifier.isStart c = false

namespace Identifier

def blankCodes : List Nat :=
  List.range' 0x9 5 ++ [0x20, 0x85, 0xA0, 0x1680] ++ List.range' 0x2000 11
    ++ [0x2028, 0x2029, 0x202F, 0x205F, 0x3000]

theorem toNat_mem_blankCodes {c : Char} (h : Text.isBlank c = true) : c.toNat ∈ blankCodes := by
  simp only [Text.isBlank, Bool.or_eq_true, Bool.and_eq_true, decide_eq_true_eq, beq_iff_eq] at h
  simp only [blankCodes, List.mem_append, List.mem_range'_1, List.mem_cons, List.not_mem_nil,
    or_false]
  omega

theorem isBlank_not_name {c : Char} (h : Text.isBlank c = true) :
    (!isPart c && !isPicture c) = true := by
  have hcodes : ∀ n ∈ blankCodes, (!isPart (Char.ofNat n)
      && !isPicture (Char.ofNat n)) = true := by
    decide +kernel
  have hc := hcodes c.toNat (toNat_mem_blankCodes h)
  rwa [Char.ofNat_toNat] at hc

theorem IsWhole.ne_nil {id : Text} (h : IsWhole id) : id ≠ [] := by
  rcases h with ⟨c, cs, rfl, -⟩ | ⟨c, rfl, -⟩
  · exact List.cons_ne_nil c cs
  · exact List.cons_ne_nil c []

/-- What belongs to no name stands in none. -/
theorem IsWhole.not_mem {id : Text} (h : IsWhole id) {c : Char}
    (hc : (!isPart c && !isPicture c) = true) : c ∉ id := by
  simp only [Bool.and_eq_true, Bool.not_eq_true'] at hc
  intro hmem
  rcases h with ⟨d, ds, rfl, hd, hds⟩ | ⟨d, rfl, hd, -⟩
  · rcases List.mem_cons.mp hmem with rfl | hmem
    · simp [isPart_of_isStart hd] at hc
    · simp [hds c hmem] at hc
  · obtain rfl := List.mem_singleton.mp hmem
    simp [hd] at hc

/-- Quotes of either kind hold a name as it is. -/
theorem IsWhole.isHeld {id : Text} (h : IsWhole id) {quote : Char} (hq : isQuote quote = true) :
    ∀ c ∈ id, Lexeme.isHeld quote c = true := by
  have hmarks : (['"', '\'', '\\', '\n', '\r'].all fun c => !isPart c && !isPicture c) = true := by
    decide
  intro c hc
  have hnot : c ∉ ['"', '\'', '\\', '\n', '\r'] :=
    fun hmem => h.not_mem (List.all_eq_true.mp hmarks c hmem) hc
  simp only [List.mem_cons, List.not_mem_nil, or_false, not_or] at hnot
  simp only [Lexeme.isHeld, Bool.and_eq_true, decide_eq_true_eq]
  have hquote : c ≠ quote := by
    rintro rfl
    simp [isQuote, hnot] at hq
  exact ⟨⟨⟨hquote, hnot.2.2.1⟩, hnot.2.2.2.1⟩, hnot.2.2.2.2⟩

end Identifier

def Token.IsNamed (t : Token) : Prop :=
  ∀ id, t.kind = .name id → Identifier.IsWhole id

/-- Tokens of which none is an ill-formed name. -/
def AllNamed (ts : List Token) : Prop :=
  ∀ t ∈ ts, t.IsNamed

theorem AllNamed.append {ts ts' : List Token} (h : AllNamed ts) (h' : AllNamed ts') :
    AllNamed (ts ++ ts') :=
  fun t ht => (List.mem_append.mp ht).elim (h t) (h' t)

theorem allNamed_one {t : Token} (h : t.IsNamed) : AllNamed [t] :=
  fun _ ht => List.mem_singleton.mp ht ▸ h

/-- A token of layout is no name. -/
theorem isNamed_of_isLayout {t : Token} (h : t.kind.isLayout = true) : t.IsNamed := by
  intro id hid
  rw [hid] at h
  cases h

theorem valid_takeWhile {c : Char} (cs : Text) (hc : Identifier.isStart c = true) :
    Identifier.Valid ((c :: cs).takeWhile Identifier.isPart) := by
  rw [List.takeWhile_cons, if_pos (isPart_of_isStart hc)]
  exact ⟨c, _, rfl, hc, List.all_eq_true.mp List.all_takeWhile⟩

theorem readName_named {r : Rest} {c : Char} {cs : Text} (hr : r.text = c :: cs)
    (hc : Identifier.isStart c = true) : (readName r).1.IsNamed := by
  intro id hid
  simp only [readName, hr] at hid
  split at hid
  · cases hid
  · cases hid
    exact .inl (valid_takeWhile cs hc)

def TokenKind.isNumber : TokenKind → Bool
  | .int _ | .float _ | .imaginary _ => true
  | _ => false

theorem numberToken_isNumber (start : Nat) {plain : TokenKind} (hp : plain.isNumber = true)
    (value : Number.Binary) (r : Rest) : (numberToken start plain value r).1.kind.isNumber = true := by
  unfold numberToken
  split
  · rfl
  · exact hp

theorem readDecimal_isNumber {r r' : Rest} {t : Token} (h : readDecimal r = .ok (t, r')) :
    t.kind.isNumber = true := by
  have hnumber {start : Nat} {plain : TokenKind} {value : Number.Binary} {after : Rest}
      (hp : plain.isNumber = true) (h : numberToken start plain value after = (t, r')) :
      t.kind.isNumber = true := by
    have hkind := numberToken_isNumber start hp value after
    rwa [h] at hkind
  unfold readDecimal at h
  simp only [bind, Except.bind, pure, Except.pure, throw, throwThe, MonadExceptOf.throw] at h
  split at h
  · split at h
    · split at h
      · cases h
      · split at h
        · cases h
        · split at h
          · cases h
          · exact hnumber rfl (Except.ok.inj h)
    · split at h
      · cases h
      · split at h
        · cases h
        · exact hnumber rfl (Except.ok.inj h)
  · split at h
    · exact hnumber rfl (Except.ok.inj h)
    · split at h
      · cases h
      · obtain ⟨rfl, -⟩ := Prod.mk.inj (Except.ok.inj h)
        rfl

theorem readNumber_isNumber {r r' : Rest} {t : Token} (h : readNumber r = .ok (t, r')) :
    t.kind.isNumber = true := by
  unfold readNumber at h
  split at h
  · split at h
    · unfold readBased at h
      simp only at h
      split at h
      · cases h
      · obtain ⟨rfl, -⟩ := Prod.mk.inj (Except.ok.inj h)
        rfl
    · exact readDecimal_isNumber h
  · exact readDecimal_isNumber h

/-- A number is no name. -/
theorem readNumber_named {r r' : Rest} {t : Token} (h : readNumber r = .ok (t, r')) :
    t.IsNamed := by
  intro id hid
  have hkind := readNumber_isNumber h
  rw [hid] at hkind
  cases hkind

theorem readLiteral_named {kind : LiteralKind} {raw : Bool} {letters : Nat} {r r' : Rest} {t : Token}
    (h : readLiteral kind raw letters r = .ok (t, r')) : t.IsNamed := by
  unfold readLiteral at h
  simp only [bind, Except.bind, pure, Except.pure] at h
  split at h
  · cases h
  · obtain ⟨rfl, -⟩ := Prod.mk.inj (Except.ok.inj h)
    exact fun _ hid => by cases hid

namespace Reader

variable {s s' : Reader} {c : Char} {ts : List Token}

theorem readSymbol_named (hc : Identifier.isStart c = false) (h : s.readSymbol c = .ok (ts, s')) :
    AllNamed ts := by
  have hoperator {o : Operator} {start stop : Nat} : AllNamed [⟨.operator o, start, stop⟩] :=
    allNamed_one fun _ hid => by cases hid
  unfold readSymbol at h
  split at h
  · dsimp only at h
    split at h
    · obtain ⟨rfl, -⟩ := Prod.mk.inj (Except.ok.inj h)
      exact hoperator
    · split at h
      · split at h
        · cases h
        · obtain ⟨rfl, -⟩ := Prod.mk.inj (Except.ok.inj h)
          exact hoperator
      · obtain ⟨rfl, -⟩ := Prod.mk.inj (Except.ok.inj h)
        exact hoperator
  · split at h
    · cases h
    · split at h
      · rename_i hpicture
        obtain ⟨rfl, -⟩ := Prod.mk.inj (Except.ok.inj h)
        refine allNamed_one fun id hid => ?_
        cases hid
        exact .inr ⟨c, rfl, hpicture, hc⟩
      · cases h

theorem continueLine_nil (h : s.continueLine = .ok (ts, s')) : ts = [] := by
  unfold continueLine at h
  dsimp only at h
  split at h
  · split at h
    · cases h
    · exact (Prod.mk.inj (Except.ok.inj h)).1.symm
  · cases h

/-- Of what is read inside a line, only words and pictures are names. -/
theorem readInLine_named {cs : Text} (hc : s.rest.text = c :: cs)
    (h : s.readInLine c = .ok (ts, s')) : AllNamed ts := by
  have hnil : AllNamed [] := fun _ ht => absurd ht List.not_mem_nil
  unfold readInLine at h
  simp only [bind, Except.bind, pure, Except.pure] at h
  split at h
  · split at h
    · cases h
    · rename_i v hv
      obtain ⟨rfl, -⟩ := Prod.mk.inj (Except.ok.inj h)
      exact allNamed_one (readLiteral_named hv)
  · split at h
    · rename_i hstart
      obtain ⟨rfl, -⟩ := Prod.mk.inj (Except.ok.inj h)
      exact allNamed_one (readName_named hc hstart)
    · rename_i hstart
      split at h
      · split at h
        · cases h
        · rename_i v hv
          obtain ⟨rfl, -⟩ := Prod.mk.inj (Except.ok.inj h)
          exact allNamed_one (readNumber_named hv)
      · split at h
        · obtain ⟨rfl, -⟩ := Prod.mk.inj (Except.ok.inj h)
          exact hnil
        · split at h
          · split at h
            · obtain ⟨rfl, -⟩ := Prod.mk.inj (Except.ok.inj h)
              exact hnil
            · split at h
              · obtain ⟨rfl, -⟩ := Prod.mk.inj (Except.ok.inj h)
                exact allNamed_one (isNamed_of_isLayout rfl)
              · obtain ⟨rfl, -⟩ := Prod.mk.inj (Except.ok.inj h)
                exact hnil
          · split at h
            · obtain ⟨rfl, -⟩ := Prod.mk.inj (Except.ok.inj h)
              exact hnil
            · split at h
              · exact continueLine_nil h ▸ hnil
              · exact readSymbol_named (Bool.eq_false_iff.mpr hstart) h

/-- The tokens at the start of a line are layout. -/
theorem enterLine_named (h : s.enterLine = .ok (ts, s')) : AllNamed ts := by
  have hlayout {ts : List Token} (hts : ∀ t ∈ ts, t.kind.isLayout = true) : AllNamed ts :=
    fun t ht => isNamed_of_isLayout (hts t ht)
  unfold enterLine at h
  simp only [bind, Except.bind, pure, Except.pure, throw, throwThe, MonadExceptOf.throw] at h
  split at h
  · cases h
  · split at h
    · cases h
    · obtain ⟨rfl, -⟩ := Prod.mk.inj (Except.ok.inj h)
      exact hlayout (by simp)
    · obtain ⟨rfl, -⟩ := Prod.mk.inj (Except.ok.inj h)
      exact hlayout (by simp [TokenKind.isLayout])
    · split at h
      · cases h
      · split at h
        · cases h
        · obtain ⟨rfl, -⟩ := Prod.mk.inj (Except.ok.inj h)
          refine hlayout fun t ht => ?_
          rw [List.eq_of_mem_replicate ht]
          rfl

theorem finish_named (s : Reader) : AllNamed s.finish.tokens := by
  unfold finish
  split
  · exact fun _ ht => absurd ht List.not_mem_nil
  · refine AllNamed.append (fun t ht => ?_) fun t ht => ?_
    · split at ht
      · cases ht
      · rw [List.mem_singleton.mp ht]
        exact isNamed_of_isLayout rfl
    · rw [List.eq_of_mem_replicate ht]
      exact isNamed_of_isLayout rfl

/-- Every name among the tokens of a text is a name as it should be. -/
theorem run_named (s : Reader) (n : Nat) : AllNamed (s.run n).tokens := by
  have hnil : AllNamed [] := fun _ ht => absurd ht List.not_mem_nil
  induction n generalizing s with
  | zero => exact hnil
  | succ n ih =>
    unfold run
    split
    · exact hnil
    · rename_i margin inside henter
      have hmargin : AllNamed margin := by
        split at henter
        · exact enterLine_named henter
        · obtain ⟨rfl, -⟩ := Prod.mk.inj (Except.ok.inj henter)
          exact hnil
      split
      · exact hmargin.append inside.finish_named
      · rename_i hc
        split
        · exact hnil
        · rename_i hread
          exact (hmargin.append (readInLine_named hc hread)).append (ih _)

end Reader

/-- The words that become names are identifiers. -/
theorem soften_named {ts : List Token} (h : AllNamed ts) (lineStart : Bool) :
    AllNamed (soften lineStart ts) := by
  induction ts generalizing lineStart with
  | nil => exact h
  | cons t ts ih =>
    have hlater : AllNamed ts := fun x hx => h x (List.mem_cons_of_mem _ hx)
    have hword : ∀ word : Keyword, Identifier.Valid word.text := by
      intro word
      cases word <;> decide
    unfold soften
    refine List.forall_mem_cons.mpr ⟨fun id hid => ?_, ih hlater _⟩
    replace h := h t (by simp) id
    obtain ⟨kind, start, stop⟩ := t
    cases kind with
    | keyword word =>
      cases word <;> simp only at hid <;> (try split at hid) <;> cases hid <;> exact .inl (hword _)
    | name id' => exact h hid
    | _ => cases hid

/-- Every name among the tokens of a text is an identifier or a picture. -/
theorem Stream.ofText_named (t : Text) (offset : Nat) (isModule : Bool) :
    AllNamed (Stream.ofText t offset isModule).tokens :=
  soften_named (Reader.run_named _ _) _

end Pagewright.Syntax
