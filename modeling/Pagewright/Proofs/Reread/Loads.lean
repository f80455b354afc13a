import Mathlib.Tactic.SplitIfs
import Pagewright.Proofs.Lexing.Spelling
import Pagewright.Proofs.Reread.Repeats
import Pagewright.Proofs.Reread.Steps

namespace Pagewright.Syntax

/-- What is in a literal is shorter by its quotes. -/
theorem readLiteralBody_length {quote : Char} {tripled : Bool} {fuel : Nat} {r r' : Rest}
    {content : Text} (h : readLiteralBody quote tripled fuel r = .ok (content, r')) :
    content.length + 1 + r'.text.length ≤ r.text.length := by
  induction fuel generalizing r content with
  | zero => cases h
  | succ fuel ih =>
    unfold readLiteralBody at h
    split at h
    · cases h
    · rename_i c r₁ hc
      have hfirst := (Rest.next_passes hc).shorter
      split at h
      · split at h
        · have hlater := ih h
          omega
        · rename_i d r₂ hd
          have hsecond := (Rest.next_passes hd).shorter
          obtain ⟨⟨later, r₃⟩, hlater, h⟩ := bind_eq_ok_iff.mp h
          obtain ⟨rfl, rfl⟩ := Prod.mk.inj (Except.ok.inj h)
          have hrest := ih hlater
          simp only [List.length_cons]
          omega
      · split at h
        · cases h
        · split at h
          · obtain ⟨rfl, rfl⟩ := Prod.mk.inj (Except.ok.inj h)
            split
            · simp only [Rest.skip, List.length_drop, List.length_nil]
              omega
            · simp only [List.length_nil]
              omega
          · obtain ⟨⟨later, r₂⟩, hlater, h⟩ := bind_eq_ok_iff.mp h
            obtain ⟨rfl, rfl⟩ := Prod.mk.inj (Except.ok.inj h)
            have hrest := ih hlater
            simp only [List.length_cons]
            omega

/-- A literal weighs no more than twice its characters. -/
theorem readLiteral_weight {kind : LiteralKind} {raw : Bool} {letters : Nat} {r r' : Rest} {t : Token}
    (hl : literalStart? r.text = some (kind, raw, letters))
    (h : readLiteral kind raw letters r = .ok (t, r')) :
    t.kind.weight + 2 * r'.text.length ≤ 2 * r.text.length := by
  obtain ⟨v, quote, rest, hr, rfl, hquote, -⟩ := literalStart_eq hl
  unfold readLiteral at h
  obtain ⟨⟨content, after⟩, hbody, h⟩ := bind_eq_ok_iff.mp h
  obtain ⟨rfl, rfl⟩ := Prod.mk.inj (Except.ok.inj h)
  have hlen := readLiteralBody_length hbody
  simp only [Rest.skip, hr, List.drop_left, List.length_drop, List.length_cons] at hlen
  simp only [TokenKind.weight, hr, List.length_append, List.length_cons]
  split at hlen <;> omega

namespace Reader

variable {s s' : Reader} {c : Char} {cs : Text} {ts : List Token}

/-- A token inside a line weighs no more than twice the characters that it is read from. -/
theorem readInLine_load (hc : s.rest.text = c :: cs) (h : s.readInLine c = .ok (ts, s')) :
    load (ts.map Token.kind) + 2 * s'.rest.text.length ≤ 2 * s.rest.text.length := by
  have htook := readInLine_took hc h
  have hshorter := htook.passes.shorter
  have hone {t : Token} (ht : t.kind.weight = 1) :
      load ([t].map Token.kind) + 2 * s'.rest.text.length ≤ 2 * s.rest.text.length := by
    simp only [List.map_cons, List.map_nil, load_cons, load_nil, ht]
    omega
  cases readInLine_finds hc h with
  | literal starts read => simpa using readLiteral_weight starts read
  | name none starts =>
    refine hone ?_
    rcases readName_kind s.rest with ⟨w, hw⟩ | ⟨id, hid⟩
    · rw [hw]
      rfl
    · rw [hid]
      rfl
  | @number t r none noName starts read =>
    refine hone ?_
    have hkind := readNumber_isNumber read
    cases hk : t.kind <;> rw [hk] at hkind <;> first | rfl | cases hkind
  | gap opens layout =>
    rcases htook.tokens with rfl | ⟨t, rfl, -⟩
    · simp only [List.map_nil, load_nil]
      omega
    · refine hone ?_
      have hkind := layout t List.mem_cons_self
      cases hk : t.kind <;> rw [hk] at hkind <;> first | rfl | cases hkind
  | symbol none noName noNumber noGap read =>
    obtain ⟨t, rfl, ⟨o, ho⟩ | hid⟩ := readSymbol_word read
    · exact hone (by rw [ho]; rfl)
    · exact hone (by rw [hid]; rfl)

/-- Each block that a line leaves gives one dedent. -/
theorem closeBlocks_length {own : Indentation} {blocks kept : List Indentation} {n : Nat}
    (h : closeBlocks own blocks = .ok (n, kept)) : n + kept.length = blocks.length := by
  induction blocks generalizing n kept with
  | nil =>
    obtain ⟨rfl, rfl⟩ := Prod.mk.inj (Except.ok.inj h)
    rfl
  | cons top below ih =>
    unfold closeBlocks at h
    split at h
    · cases h
    · obtain ⟨rfl, rfl⟩ := Prod.mk.inj (Except.ok.inj h)
      simp
    · cases h
    · obtain ⟨⟨m, kept'⟩, hclose, h⟩ := bind_eq_ok_iff.mp h
      obtain ⟨rfl, rfl⟩ := Prod.mk.inj (Except.ok.inj h)
      have hrest := ih hclose
      rw [List.length_cons]
      omega

/-- Indentation is no longer than the characters that it is read from. -/
theorem readMargin_length {t : Text} {offset : Nat} {own : Indentation} {comment : Bool} {m : Margin}
    (h : readMargin t offset own comment = .ok m) :
    m.indentation.tabs + m.indentation.spaces + m.rest.text.length ≤
      own.tabs + own.spaces + t.length := by
  induction t generalizing offset own comment with
  | nil =>
    obtain rfl := Except.ok.inj h
    simp
  | cons c cs ih =>
    unfold readMargin at h
    rw [List.length_cons]
    split_ifs at h
    · have hlater := ih h
      simp only at hlater
      omega
    · have hlater := ih h
      simp only at hlater
      omega
    · have hlater := ih h
      simp only at hlater
      omega
    · have hlater := ih h
      simp only at hlater
      omega
    · have hlater := ih h
      simp only at hlater
      omega
    · have hlater := ih h
      simp only at hlater
      omega
    · obtain rfl := Except.ok.inj h
      simp

theorem compare_gt {own current : Indentation} (h : own.compare current = some .gt) :
    0 < own.tabs + own.spaces := by
  unfold Indentation.compare at h
  split_ifs at h
  · cases h
  · omega
  · have hlt := Nat.compare_eq_gt.mp (Option.some.inj h)
    omega

theorem load_replicate (k : TokenKind) (n : Nat) : load (List.replicate n k) = n * k.weight := by
  induction n with
  | zero => simp
  | succ n ih => rw [List.replicate_succ, load_cons, ih, Nat.succ_mul, Nat.add_comm]

/-- A block that is opened counts for its indent and its dedent. -/
theorem enterLine_load (h : s.enterLine = .ok (ts, s')) :
    load (ts.map Token.kind) + s'.blocks.length + 2 * s'.rest.text.length ≤
      s.blocks.length + 2 * s.rest.text.length := by
  unfold enterLine at h
  obtain ⟨margin, hmargin, h⟩ := bind_eq_ok_iff.mp h
  have hlen := readMargin_length hmargin
  dsimp only at h hlen
  split at h
  · cases h
  · obtain ⟨rfl, rfl⟩ := Prod.mk.inj (Except.ok.inj h)
    simp only [List.map_nil, load_nil]
    omega
  · rename_i hgt
    have hpos := compare_gt hgt
    obtain ⟨rfl, rfl⟩ := Prod.mk.inj (Except.ok.inj h)
    simp only [List.map_cons, List.map_nil, load_cons, load_nil, TokenKind.weight, List.length_cons]
    omega
  · split at h
    · cases h
    · rename_i n kept hclose
      have hcount := closeBlocks_length hclose
      split at h
      · cases h
      · obtain ⟨rfl, rfl⟩ := Prod.mk.inj (Except.ok.inj h)
        simp only [List.map_replicate, load_replicate, TokenKind.weight]
        omega

theorem finish_load (s : Reader) : load (s.finish.tokens.map Token.kind) ≤ s.blocks.length + 1 := by
  unfold finish
  split_ifs
  · simp
  · simp [load_replicate, TokenKind.weight]
  · simp [load_replicate, TokenKind.weight]
    omega

theorem enter_load (h : s.enter = .ok (ts, s')) :
    load (ts.map Token.kind) + s'.blocks.length + 2 * s'.rest.text.length ≤
      s.blocks.length + 2 * s.rest.text.length := by
  unfold enter at h
  split at h
  · exact enterLine_load h
  · obtain ⟨rfl, rfl⟩ := Prod.mk.inj (Except.ok.inj h)
    simp

/-- All tokens of a text together weigh little more than twice its characters. -/
theorem run_load (fuel : Nat) (s : Reader) :
    load ((s.run fuel).tokens.map Token.kind) ≤ s.blocks.length + 2 * s.rest.text.length + 1 := by
  induction fuel generalizing s with
  | zero => simp [run]
  | succ fuel ih =>
    cases henter : s.enter with
    | error f =>
      unfold enter at henter
      simp [run, henter]
    | ok p =>
      obtain ⟨margin, s₁⟩ := p
      have hentered := enter_load henter
      unfold enter at henter
      rw [run, henter]
      cases htext : s₁.rest.text with
      | nil =>
        have hfinish := finish_load s₁
        simp only [htext, List.map_append, load_append]
        omega
      | cons c cs =>
        cases hread : s₁.readInLine c with
        | error f => simp [htext, hread]
        | ok q =>
          obtain ⟨found, s₂⟩ := q
          have hblocks := (readInLine_took htext hread).blocks
          have hline := readInLine_load htext hread
          have hlater := ih s₂
          simp only [htext, hread, List.map_append, load_append]
          rw [hblocks] at hlater
          omega

end Reader

theorem soften_load (lineStart : Bool) (ts : List Token) :
    load ((soften lineStart ts).map Token.kind) ≤ load (ts.map Token.kind) := by
  induction ts generalizing lineStart with
  | nil => exact Nat.le_refl 0
  | cons t ts ih =>
    obtain ⟨kind, lineStart', hsoften, hkind⟩ := soften_cons lineStart t ts
    have hweight : kind.weight ≤ t.kind.weight := by
      rcases hkind with rfl | ⟨word, hword, rfl⟩
      · exact Nat.le_refl _
      · rw [hword]
        exact Nat.le_refl _
    rw [hsoften, List.map_cons, List.map_cons, load_cons, load_cons]
    exact Nat.add_le_add hweight (ih lineStart')

/-- What the tokens of a text count is bounded by its length. -/
theorem Stream.ofText_load (t : Text) (offset : Nat) (isModule : Bool) :
    load ((Stream.ofText t offset isModule).tokens.map Token.kind) ≤ 2 * t.length + 1 := by
  have hrun := Reader.run_load (t.length + 2) (Reader.start t offset)
  have hstart : (Reader.start t offset).blocks = [] ∧
      (Reader.start t offset).rest.text.length ≤ t.length := by
    unfold Reader.start
    split <;> simp
  refine (soften_load _ _).trans (hrun.trans ?_)
  rw [hstart.1, List.length_nil]
  omega

end Pagewright.Syntax
