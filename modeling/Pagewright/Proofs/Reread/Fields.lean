import Pagewright.Proofs.Grammar.Levels
import Pagewright.Proofs.Reread.Expressions
import Pagewright.Proofs.Reread.Literals
import Pagewright.Proofs.Reread.Loads
import Pagewright.Proofs.Reread.Shift

namespace Pagewright.Syntax

namespace Reader

variable {s s' : Reader} {c : Char} {cs : Text} {ts : List Token}

/-- Only a line end lets a new line start. -/
theorem readInLine_line (hc : s.rest.text = c :: cs) (h : s.readInLine c = .ok (ts, s')) :
    s'.atLineStart = s.atLineStart ∨ ∃ t, ts = [t] ∧ t.kind = .newline := by
  cases readInLine_finds hc h with
  | literal => exact .inl rfl
  | name => exact .inl rfl
  | number => exact .inl rfl
  | gap opens _ =>
    rw [readInLine_opensGap hc opens] at h
    split at h
    · obtain ⟨-, rfl⟩ := Prod.mk.inj (Except.ok.inj h)
      exact .inl rfl
    · split at h
      · split at h
        · obtain ⟨-, rfl⟩ := Prod.mk.inj (Except.ok.inj h)
          exact .inl rfl
        · split at h
          · obtain ⟨rfl, -⟩ := Prod.mk.inj (Except.ok.inj h)
            exact .inr ⟨_, rfl, rfl⟩
          · obtain ⟨-, rfl⟩ := Prod.mk.inj (Except.ok.inj h)
            exact .inl rfl
      · split at h
        · obtain ⟨-, rfl⟩ := Prod.mk.inj (Except.ok.inj h)
          exact .inl rfl
        · unfold continueLine at h
          simp only at h
          split at h
          · split at h
            · cases h
            · obtain ⟨-, rfl⟩ := Prod.mk.inj (Except.ok.inj h)
              exact .inl rfl
          · cases h
  | symbol _ _ _ _ read =>
    obtain ⟨t, rfl, -⟩ := readSymbol_word read
    exact .inl (again_readSymbol hc read).line

/-- At the start of a line there are indents and dedents only, and it goes on inside the line. -/
theorem enterLine_layout (h : s.enterLine = .ok (ts, s')) :
    (∀ t ∈ ts, t.kind.isLayout = true) ∧ s'.atLineStart = s'.rest.text.isEmpty := by
  unfold enterLine at h
  obtain ⟨margin, -, h⟩ := bind_eq_ok_iff.mp h
  dsimp only at h
  split at h
  · cases h
  · obtain ⟨rfl, rfl⟩ := Prod.mk.inj (Except.ok.inj h)
    exact ⟨by simp, rfl⟩
  · obtain ⟨rfl, rfl⟩ := Prod.mk.inj (Except.ok.inj h)
    exact ⟨by simp [TokenKind.isLayout], rfl⟩
  · split at h
    · cases h
    · split at h
      · cases h
      · obtain ⟨rfl, rfl⟩ := Prod.mk.inj (Except.ok.inj h)
        exact ⟨by simp [TokenKind.isLayout], rfl⟩

theorem enter_layout (h : s.enter = .ok (ts, s')) :
    (∀ t ∈ ts, t.kind.isLayout = true) ∧ (s'.rest.text ≠ [] → s'.atLineStart = false) ∧
      (s.atLineStart = false → s'.atLineStart = false) := by
  unfold enter at h
  split at h
  · rename_i hline
    obtain ⟨hlayout, hstart⟩ := enterLine_layout h
    refine ⟨hlayout, fun hne => ?_, fun hno => absurd hline (by simp [hno])⟩
    rw [hstart, List.isEmpty_eq_false_iff]
    exact hne
  · rename_i hline
    obtain ⟨rfl, rfl⟩ := Prod.mk.inj (Except.ok.inj h)
    exact ⟨by simp, fun _ => by simpa using hline, id⟩

theorem finish_layout (s : Reader) : ∀ t ∈ s.finish.tokens, t.kind.isLayout = true := by
  unfold finish
  intro t ht
  split at ht
  · simp at ht
  · simp only [List.mem_append, List.mem_replicate] at ht
    rcases ht with ht | ⟨-, rfl⟩
    · split at ht
      · simp at ht
      · rw [List.mem_singleton.mp ht]
        rfl
    · rfl

theorem finish_nonempty (h : s.finish.fault = none) (hline : s.atLineStart = false) :
    s.finish.tokens ≠ [] := by
  unfold finish at h ⊢
  split at h
  · cases h
  · rename_i hdepth
    simp [hdepth, hline]

/-- The last token of a text ends a line or a block. -/
theorem run_last {fuel : Nat} (h : (s.run fuel).fault = none) :
    (∀ t ∈ (s.run fuel).tokens.getLast?, t.kind.isLayout = true) ∧
      ((s.run fuel).tokens = [] → s.atLineStart = true) := by
  induction fuel generalizing s with
  | zero => cases h
  | succ fuel ih =>
    cases henter : s.enter with
    | error f =>
      unfold enter at henter
      rw [run, henter] at h
      cases h
    | ok p =>
      obtain ⟨margin, s₁⟩ := p
      obtain ⟨hmargin, hinside, hkept⟩ := enter_layout henter
      unfold enter at henter
      rw [run, henter] at h ⊢
      cases htext : s₁.rest.text with
      | nil =>
        simp only [htext] at h ⊢
        refine ⟨fun t ht => ?_, fun hnil => ?_⟩
        · rcases List.mem_append.mp (List.mem_of_getLast? ht) with ht | ht
          · exact hmargin t ht
          · exact finish_layout s₁ t ht
        · by_contra hline
          exact finish_nonempty h (hkept (by simpa using hline)) (List.append_eq_nil_iff.mp hnil).2
      | cons c cs =>
        simp only [htext] at h ⊢
        cases hread : s₁.readInLine c with
        | error f =>
          rw [hread] at h
          cases h
        | ok q =>
          obtain ⟨found, s₂⟩ := q
          simp only [hread] at h ⊢
          obtain ⟨hlast, hnil⟩ := ih h
          cases hlater : (run fuel s₂).tokens with
          | nil =>
            rcases readInLine_line htext hread with hsame | ⟨t, rfl, ht⟩
            · rw [hnil hlater, hinside (by simp [htext])] at hsame
              cases hsame
            · simp [ht, TokenKind.isLayout]
          | cons t ts =>
            rw [hlater] at hlast
            refine ⟨fun x hx => hlast x ?_, by simp⟩
            simpa [List.getLast?_append, List.getLast?_cons] using hx

end Reader

/-- The end of the last line stays where it is. -/
theorem soften_last {ts : List Token} (h : ∀ t ∈ ts.getLast?, t.kind.isLayout = true)
    (lineStart : Bool) : ∀ t ∈ (soften lineStart ts).getLast?, t.kind.isLayout = true := by
  induction ts generalizing lineStart with
  | nil => simp [soften]
  | cons t ts ih =>
    obtain ⟨kind, lineStart', hsoften, hkind⟩ := soften_cons lineStart t ts
    rw [hsoften]
    cases ts with
    | nil =>
      have hlayout : t.kind.isLayout = true := h t (by simp)
      simpa [soften, hkind.eq_of_isLayout hlayout] using hlayout
    | cons u us =>
      obtain ⟨kind', lineStart'', hsoften', -⟩ := soften_cons lineStart' u us
      have hlater := ih (by simpa using h) lineStart'
      rw [hsoften'] at hlater ⊢
      simpa using hlater

/-- The last token of a text ends a line or a block. -/
theorem Stream.ofText_last {t : Text} {offset : Nat} {isModule : Bool}
    (h : (Stream.ofText t offset isModule).fault = none) :
    ∀ x ∈ (Stream.ofText t offset isModule).tokens.getLast?, x.kind.isLayout = true :=
  soften_last (Reader.run_last h).1 _

namespace Parser

def toEnd {α : Type} (fuel : Nat) (p : Parser α) : Parser α := do
  let value ← p
  let _ ← manyWhile (accept .newline) (pure ()) fuel
  if (← next?).isSome then unexpected
  settle
  return value

variable {α : Type} {p : Parser α} {c : Cursor} {fuel : Nat}

theorem post_newlines (fuel : Nat) (c : Cursor) :
    Post (manyWhile (accept .newline) (pure ()) fuel) c fun _ c' => (c'.held = none → c.Clear c') ∧
      ∃ ts, c.Takes ts c' ∧ ∀ t ∈ ts, t.kind = .newline := by
  induction fuel generalizing c with
  | zero => exact post_pure ⟨fun h => ⟨h, rfl⟩, [], .refl c, by simp⟩
  | succ fuel ih =>
    refine post_accept_clear.bind fun b c₁ h => ?_
    rcases h with ⟨rfl, -, t, ht, hkind, hc⟩ | ⟨rfl, -, rfl⟩
    · refine Post.pure_bind ((ih c₁).bind fun xs c₂ h => post_pure ?_)
      obtain ⟨hc₁, ts, hts, hall⟩ := h
      exact ⟨fun h => (hc (hc₁ h).held).trans (hc₁ h), t :: ts, ht.trans hts, by simpa [hkind] using hall⟩
    · exact post_pure ⟨fun h => ⟨h, rfl⟩, [], .refl c₁, by simp⟩

/-- Line ends at the end of a text are passed over, however many they are. -/
theorem newlines_all {ts : List Token} (h : ∀ t ∈ ts, t.kind = .newline) (hfuel : ts.length ≤ fuel)
    (stop : Nat) : ∃ found stop', manyWhile (accept .newline) (pure ()) fuel ⟨ts, none, stop, none⟩ =
      .ok (found, ⟨[], none, stop', none⟩) := by
  induction ts generalizing fuel stop with
  | nil => cases fuel <;> exact ⟨[], stop, rfl⟩
  | cons t ts ih =>
    obtain ⟨fuel, rfl⟩ : ∃ n, fuel = n + 1 := ⟨fuel - 1, by simp at hfuel; omega⟩
    obtain ⟨found, stop', hlater⟩ := ih (fun x hx => h x (by simp [hx]))
      (by simpa using hfuel) t.stop
    have hkind : t.kind = .newline := h t (by simp)
    have haccept : accept .newline ⟨t :: ts, none, stop, none⟩ =
        .ok (true, ⟨ts, none, t.stop, none⟩) := by
      obtain ⟨kind, first, last⟩ := t
      subst hkind
      rfl
    refine ⟨() :: found, stop', ?_⟩
    unfold manyWhile
    have hpure : (pure () : Parser Unit) ⟨ts, none, t.stop, none⟩ =
        .ok ((), ⟨ts, none, t.stop, none⟩) := rfl
    simp only [bind, StateT.bind, Except.bind, haccept, if_true, hpure, hlater]
    rfl

/-- A rule gives something up to the end where nothing is wrong and only line ends follow. -/
theorem post_toEnd : Post (toEnd fuel p) c fun x _ =>
    ∃ c₁, p c = .ok (x, c₁) ∧ c₁.held = none ∧ c₁.ending = none ∧ ∀ t ∈ c₁.tokens, t.kind = .newline := by
  have hp : Post p c fun x c₁ => p c = .ok (x, c₁) := fun x c₁ h => h
  refine hp.bind fun x c₁ hx => (post_newlines fuel c₁).bind fun _ c₂ h => ?_
  obtain ⟨hclear, ts, hts, hall⟩ := h
  have hnext : Post next? c₂ fun o c₃ => c₃ = c₂ ∧ o = c₂.tokens.head? ∧
      (o = none → c₂.ending = none) := by
    intro o c₃ ho
    unfold next? at ho
    split at ho
    · obtain ⟨rfl, rfl⟩ := Prod.mk.inj (Except.ok.inj ho)
      simp [*]
    · cases ho
    · obtain ⟨rfl, rfl⟩ := Prod.mk.inj (Except.ok.inj ho)
      simp [*]
  refine hnext.bind fun o c₃ h => ?_
  obtain ⟨rfl, ho, hending⟩ := h
  have hsettle : Post settle c₃ fun _ c₄ => c₄ = c₃ ∧ c₃.held = none := by
    intro u c₄ hu
    unfold settle at hu
    split at hu
    · cases hu
    · obtain ⟨-, rfl⟩ := Prod.mk.inj (Except.ok.inj hu)
      exact ⟨rfl, ‹_›⟩
  cases o with
  | some t => exact Post.bind (P := fun _ _ => False) post_unexpected fun _ _ h => h.elim
  | none =>
    refine hsettle.bind fun _ c₄ h => post_pure ?_
    obtain ⟨rfl, hheld⟩ := h
    have htokens : c₄.tokens = [] := List.head?_eq_none_iff.mp ho.symm
    have hc₁ := hclear hheld
    refine ⟨c₁, hx, hc₁.held, hc₁.ending.trans (hending rfl), ?_⟩
    rw [hts.tokens, htokens, List.append_nil]
    exact hall

theorem toEnd_eq {x : α} {ts : List Token} {stop : Nat}
    (h : p c = .ok (x, ⟨ts, none, stop, none⟩)) (hts : ∀ t ∈ ts, t.kind = .newline)
    (hfuel : ts.length ≤ fuel) : ∃ c', toEnd fuel p c = .ok (x, c') := by
  obtain ⟨found, stop', hnewlines⟩ := newlines_all hts hfuel stop
  refine ⟨⟨[], none, stop', none⟩, ?_⟩
  simp only [toEnd, bind, StateT.bind, Except.bind, h, hnewlines]
  rfl

end Parser

namespace Expression

open Syntax.Parser LiteralValue

variable {b n : Nat} {g g' : Grammar}

theorem fieldReader_eq (g : Grammar) (text : Text) (offset : Nat) : fieldReader g text offset =
    match toEnd g.fuel (testList g)
        ⟨(Stream.ofText ('(' :: text ++ [')']) (offset - 1) false).tokens,
          (Stream.ofText ('(' :: text ++ [')']) (offset - 1) false).fault, offset - 1, none⟩ with
    | .ok (value, _) => .ok value
    | .error f => .error f.cause := rfl

/-- The expressions of format fields are read again. -/
theorem fields_again (hg : g.Repeated b g') (hb : 2 * n + 4 ≤ b) :
    FieldsAgain n (fieldReader g) (fieldReader g') := by
  intro text offset e hlen h offset'
  rw [fieldReader_eq] at h
  split at h
  · rename_i value c' hx
    obtain rfl := Except.ok.inj h
    obtain ⟨c₁, hvalue, hclear, hending, hnewlines⟩ := post_toEnd _ _ hx
    obtain ⟨hc, ts, hts, hpos, -, hagain⟩ := repeated_testList hg 0 _ _ _ hvalue hclear
    have hread := hc.ending.trans hending
    obtain ⟨hfault, hkinds⟩ := Stream.ofText_shift hread (offset' - 1)
    have hload := Stream.ofText_load ('(' :: text ++ [')']) (offset - 1) false
    have htokens := hts.tokens
    simp only at htokens
    rw [htokens, List.map_append] at hkinds
    rw [htokens, List.map_append, load_append] at hload
    have hlength : ('(' :: text ++ [')']).length = text.length + 2 := by simp
    have hrest : (c₁.tokens.map Token.kind).length ≤ load (c₁.tokens.map Token.kind) :=
      length_le_load _
    rw [List.length_map] at hrest
    have hfollows : Follows isClosing c₁.kind? (c₁.tokens.map Token.kind) := by
      obtain ⟨us, hus, husne, hwords⟩ := (told_testList hg.tells _ _ _ hvalue).1
      cases hnext : c₁.tokens with
      | nil =>
        have hlast := @Stream.ofText_last _ _ false hread
        have hwhole := hus.tokens
        simp only [hnext, List.append_nil] at hwhole
        rw [hwhole, List.getLast?_eq_some_getLast husne] at hlast
        have hword := hwords _ (List.getLast_mem husne)
        rw [hlast _ rfl] at hword
        cases hword
      | cons t later => exact ⟨t.kind, rfl, .inl (by simp [Cursor.kind?, hnext])⟩
    obtain ⟨e', ts', stop', hgives, hrest', he⟩ := hagain (by omega) _ hfollows _
      (Stream.ofText ('(' :: text ++ [')']) (offset' - 1) false).fault (offset' - 1) hkinds
    have hnewlines' : ∀ t ∈ ts', t.kind = .newline := by
      intro t ht
      obtain ⟨u, hu, hsame⟩ := List.mem_map.mp (hrest' ▸ List.mem_map_of_mem ht)
      rw [← hsame]
      exact hnewlines u hu
    have hcount : ts'.length = c₁.tokens.length := by
      simpa using congrArg List.length hrest'
    rw [hfault] at hgives
    have hfuel : ts'.length ≤ g'.fuel := by
      have hless := hg.fuel'
      omega
    obtain ⟨c'', hend⟩ := toEnd_eq hgives hnewlines' hfuel
    refine ⟨e', ?_, he⟩
    rw [fieldReader_eq, hfault, hend]
  · cases h

end Expression
end Pagewright.Syntax
