import Pagewright.Proofs.Reread.Defaults

namespace Pagewright.Syntax

open Text

section Heads

variable {ks later later' : List TokenKind} {first pending : Bool} {depth : Int}

/-- What the search for a colon does at a token is the same for tokens that go on alike. -/
theorem heads_cons (k : TokenKind)
    (h : ∀ first pending depth, heads later first pending depth = heads later' first pending depth) :
    heads (k :: later) first pending depth = heads (k :: later') first pending depth := by
  simp only [heads, List.map_cons] at h ⊢
  simp only [headsBlock, h]

theorem heads_softer (k : TokenKind) : heads (k.softer :: later) first pending depth =
    heads (k :: later) first pending depth := by
  cases k with
  | keyword w => cases w <;> rfl
  | _ => rfl

/-- The search for a colon passes over soft words and over names alike. -/
theorem heads_map_softer (ks later : List TokenKind) (first pending : Bool) (depth : Int) :
    heads (ks.map TokenKind.softer ++ later) first pending depth =
      heads (ks ++ later) first pending depth := by
  induction ks generalizing first pending depth with
  | nil => rfl
  | cons k ks ih =>
    rw [List.map_cons, List.cons_append, heads_softer, List.cons_append]
    exact heads_cons k ih

/-- Which words are names does not matter to the search for a colon that heads a block. -/
theorem heads_softened (lineStart : Bool) (ks : List TokenKind) (first pending : Bool) (depth : Int) :
    heads (softened lineStart ks) first pending depth = heads ks first pending depth := by
  have hall (us : List Token) (lineStart : Bool) (first pending : Bool) (depth : Int) :
      heads ((soften lineStart us).map Token.kind) first pending depth =
        heads (us.map Token.kind) first pending depth := by
    induction us generalizing lineStart first pending depth with
    | nil => rfl
    | cons u us ih =>
      obtain ⟨kind, hsoften, hkind⟩ := soften_next lineStart u us
      rw [hsoften, List.map_cons, List.map_cons]
      rcases hkind with rfl | rfl
      · exact heads_cons _ (ih _)
      · rw [heads_softer]
        exact heads_cons _ (ih _)
  rw [softened, hall, List.map_map, show Token.kind ∘ TokenKind.token = id from rfl, List.map_id]

theorem headsBlock_kinds (ts : List Token) (first pending : Bool) (depth : Int) :
    headsBlock ts first pending depth = heads (ts.map Token.kind) first pending depth := by
  rw [heads, List.map_map, headsBlock_map (f := TokenKind.token ∘ Token.kind) fun _ => rfl]

end Heads

section Softened

variable {k : TokenKind} {ks : List TokenKind}

/-- The words inside a line are softened one by one. -/
theorem softened_inner (h : ∀ k ∈ ks, k.isLayout = false) :
    softened false (ks ++ [TokenKind.newline]) = ks.map TokenKind.softer ++ [TokenKind.newline] := by
  induction ks with
  | nil => rfl
  | cons k ks ih =>
    obtain ⟨hk, hks⟩ := List.forall_mem_cons.mp h
    have hinner := soften_inner k.token ((ks ++ [TokenKind.newline]).map TokenKind.token)
    rw [List.cons_append, softened, List.map_cons, hinner, show k.token.kind = k from rfl, hk]
    exact congrArg (k.softer :: ·) (ih hks)

/-- A line that starts with a name, or with a soft word that starts no statement. -/
theorem softened_line {id : Text} (h : ∀ k ∈ ks, k.isLayout = false)
    (hk : k = .name id ∨ ∃ w ∈ softWords, k = .keyword w ∧ w.text = id)
    (hheads : k = .keyword .matchWord ∨ k = .keyword .caseWord →
      heads (ks ++ [TokenKind.newline]) true false 0 = false)
    (halias : headsAlias ((ks ++ [TokenKind.newline]).map TokenKind.token) = false) :
    softened true (k :: ks ++ [TokenKind.newline]) =
      .name id :: ks.map TokenKind.softer ++ [TokenKind.newline] := by
  have hfirst : softened true (k :: (ks ++ [TokenKind.newline])) = .name id :: softened false (ks ++ [TokenKind.newline]) := by
    rcases hk with rfl | ⟨w, hw, rfl, rfl⟩
    · rfl
    · simp only [softWords, List.mem_cons, List.not_mem_nil, or_false] at hw
      rcases hw with rfl | rfl | rfl
      · have hheads : headsBlock ((ks ++ [TokenKind.newline]).map TokenKind.token) true false 0 = false :=
          hheads (.inl rfl)
        simp only [softened, List.map_cons, soften, TokenKind.token, hheads, Bool.and_false]
        rfl
      · have hheads : headsBlock ((ks ++ [TokenKind.newline]).map TokenKind.token) true false 0 = false :=
          hheads (.inr rfl)
        simp only [softened, List.map_cons, soften, TokenKind.token, hheads, Bool.and_false]
        rfl
      · simp only [softened, List.map_cons, soften, TokenKind.token, halias, Bool.and_false]
        rfl
  rw [List.cons_append, hfirst, softened_inner h, List.cons_append]

end Softened

namespace Reader

theorem spells_newline (place : Nat) :
    Spells (inLine 0 [] ['\n'] place) [.newline] ⟨⟨[], place + 1⟩, 0, true, []⟩ := by
  have hread : (inLine 0 [] ['\n'] place).readInLine '\n' =
      .ok ([⟨.newline, place, place + 1⟩], ⟨⟨[], place + 1⟩, 0, true, []⟩) := rfl
  exact spells_item rfl rfl hread

end Reader

open Reader

/-- The tokens of a line that is read up to its end. -/
theorem Stream.ofText_line {c : Char} {cs : Text} {ks : List TokenKind} {place : Nat}
    (hc : startsLine c = true) (h : Spells (inLine 0 [] (c :: cs) 0) ks (inLine 0 [] ['\n'] place)) :
    ∃ ts, Stream.ofText (c :: cs) 0 true = ⟨ts, none⟩ ∧
      ts.map Token.kind = softened true (ks ++ [TokenKind.newline]) := by
  obtain ⟨ts, hreads, hts⟩ := h.trans (spells_newline place)
  have hrun := run_reads (reads_unindented hc hreads (List.cons_ne_nil c cs).symm)
    (Nat.lt_add_of_pos_right (n := (c :: cs).length) (k := 2) (by decide)) (Nat.zero_lt_one)
  have hends : Ends ⟨⟨[], place + 1⟩, 0, true, []⟩
      ([] ++ (finish ⟨⟨[], place + 1⟩, 0, true, []⟩).tokens) := .mk rfl rfl rfl
  rw [run_ends hends 0] at hrun
  rw [show (finish ⟨⟨[], place + 1⟩, 0, true, []⟩).tokens = [] from rfl, List.append_nil] at hrun
  refine ⟨soften true ts, ?_, by rw [soften_kinds, hts]⟩
  rw [Stream.ofText, start_eq hc, hrun]
  simp [Stream.after]

namespace Reader

variable {s s' : Reader} {c : Char} {cs : Text} {x : Token}

/-- What a word starts with starts a line, and an equals sign starts no expression. -/
theorem readInLine_starts (hc : s.rest.text = c :: cs) (h : s.readInLine c = .ok ([x], s'))
    (hx : x.kind.isLayout = false) :
    ¬opensGap c ∧ c ≠ '\uFEFF' ∧ (c = '=' → Expression.starts x.kind.softer = false) := by
  have hgap : ¬opensGap c := by
    intro hgap
    rw [readInLine_gap hc hgap h x List.mem_cons_self] at hx
    cases hx
  by_cases hmark : c = '\uFEFF' ∨ c = '='
  · have hapart : isQuote c = false ∧ Identifier.isPart c = false ∧ Identifier.isStart c = false ∧
        c.isDigit = false ∧ c ≠ '.' ∧ Identifier.isPicture c = false := by
      rcases hmark with rfl | rfl <;> decide +kernel
    obtain ⟨hquote, hpart, hstart, hdigit, hdot, hpicture⟩ := hapart
    have hread : s.readSymbol c = .ok ([x], s') := by
      generalize hts : [x] = ts at h ⊢
      cases readInLine_finds hc h with
      | literal starts read =>
        rw [hc, literalStart_mark hquote hpart] at starts
        cases starts
      | name none starts =>
        rw [hstart] at starts
        cases starts
      | number none noName starts read => simp [hdigit, hdot] at starts
      | gap opens layout => exact absurd opens hgap
      | symbol none noName noNumber noGap read => exact read
    cases hlead : Operator.leading? s.rest.text with
    | none =>
      have hsome : (s.readSymbol c).toOption = some ([x], s') := by
        rw [hread]
        rfl
      unfold readSymbol at hsome
      rw [hlead] at hsome
      simp only [hpicture, Bool.false_eq_true, if_false] at hsome
      split at hsome <;> cases hsome
    | some p =>
      obtain ⟨o, rest⟩ := p
      obtain ⟨t, ht, hkind, -⟩ := readSymbol_operator hlead hread
      obtain rfl := List.singleton_injective ht
      have htext := hc.symm.trans (Operator.leading_eq hlead)
      have hfirst : o.text.head? = some c := by
        obtain ⟨d, ds, hd⟩ := List.exists_cons_of_ne_nil o.text_narrow.1
        rw [hd] at htext ⊢
        exact congrArg some (List.cons.inj htext).1.symm
      rw [hkind]
      rcases hmark with rfl | rfl
      · cases o <;> cases hfirst
      · refine ⟨hgap, by decide, fun _ => ?_⟩
        cases o <;> first | rfl | cases hfirst
  · rw [not_or] at hmark
    exact ⟨hgap, hmark.1, fun h => absurd h hmark.2⟩

end Reader

/-- No line ends in a text before its own end. -/
def OneLine (w : Text) : Prop :=
  ∀ t ∈ (Stream.ofText (w ++ ['\n']) 0 true).tokens, t.kind = .newline → t.start = size w

namespace Reader

variable {s s' : Reader} {ts : List Token}

theorem enterLine_start_le (h : s.enterLine = .ok (ts, s')) : ∀ t ∈ ts, t.start ≤ s'.rest.offset := by
  obtain ⟨margin, -, h⟩ := bind_eq_ok_iff.mp h
  simp only at h
  split at h
  · cases h
  · obtain ⟨rfl, rfl⟩ := Prod.mk.inj (Except.ok.inj h)
    simp
  · obtain ⟨rfl, rfl⟩ := Prod.mk.inj (Except.ok.inj h)
    intro t ht
    obtain rfl := List.mem_singleton.mp ht
    exact (Nat.sub_le _ _).trans (Nat.sub_le _ _)
  · split at h
    · cases h
    · split at h
      · cases h
      · obtain ⟨rfl, rfl⟩ := Prod.mk.inj (Except.ok.inj h)
        intro t ht
        rw [List.eq_of_mem_replicate ht]

/-- Tokens start before the place where the run that gives them ends. -/
theorem Reads.start_le (h : Reads s ts s') : ∀ t ∈ ts, t.start ≤ s'.rest.offset := by
  induction h with
  | done => simp
  | @step s s₁ s' ts later first run ih =>
    intro t ht
    rcases List.mem_append.mp ht with ht | ht
    · refine le_trans ?_ run.reaches.offset_le
      obtain ⟨margin, inside, c, cs, found, henter, hc, hread, rfl⟩ := first
      have htook := readInLine_took hc hread
      rcases List.mem_append.mp ht with ht | ht
      · refine le_trans ?_ htook.passes.reaches.offset_le
        unfold enter at henter
        split at henter
        · exact enterLine_start_le henter t ht
        · obtain ⟨rfl, -⟩ := Prod.mk.inj (Except.ok.inj henter)
          cases ht
      · rcases htook.tokens with rfl | ⟨t', rfl, hcovers⟩
        · cases ht
        · rw [List.mem_singleton.mp ht, hcovers.start]
          exact htook.passes.reaches.offset_le
    · exact ih t ht

end Reader

theorem newline_mem_soften {t : Token} {ts : List Token} {lineStart : Bool} (ht : t ∈ ts)
    (hk : t.kind = .newline) : t ∈ soften lineStart ts := by
  induction ts generalizing lineStart with
  | nil => cases ht
  | cons u ts ih =>
    obtain ⟨kind, hsoften, hkind⟩ := soften_next lineStart u ts
    rw [hsoften]
    rcases List.mem_cons.mp ht with rfl | ht
    · obtain rfl : kind = t.kind := by
        rcases hkind with rfl | rfl
        · rfl
        · rw [hk]
          rfl
      exact List.mem_cons_self
    · exact List.mem_cons_of_mem _ (ih ht)

section Pasted

variable {w u after : Text} {e : Expr} {ks : List TokenKind}

/-- The first character of a pasted text. -/
theorem Pasted.first_char [CharacterNames] (h : Pasted w e ks after) : ∃ c cs, w = c :: cs ∧
    startsLine c = true ∧ isInnerBlank c = false ∧ c ≠ '=' := by
  obtain ⟨s, s', x, hline, htext, ⟨hstep⟩, hhead⟩ := h.first
  obtain ⟨c, cs, hc, hread⟩ := hstep.inLine hline
  obtain ⟨d, ds, rfl⟩ := List.exists_cons_of_ne_nil h.nonempty
  obtain ⟨rfl, -⟩ := List.cons.inj (htext.symm.trans hc)
  have hx : x.kind.isLayout = false := h.words _ (List.mem_of_mem_head? hhead)
  obtain ⟨hgap, hmark, hequal⟩ := readInLine_starts hc hread hx
  simp only [opensGap, not_or, Bool.not_eq_true] at hgap
  obtain ⟨hhash, hnewline, hreturn, -, hblank⟩ := hgap
  have hstarts := h.starts _ hhead
  refine ⟨d, ds, rfl, ?_, hblank, ?_⟩
  · simp only [isInnerBlank, Bool.or_eq_false_iff, decide_eq_false_iff_not] at hblank
    simp [startsLine, hhash, hnewline, hreturn, hblank, hmark]
  · rintro rfl
    rw [hequal rfl] at hstarts
    cases hstarts

theorem Pasted.depth [CharacterNames] (h : Pasted w e ks after) (d : Nat) :
    depthBehind? d ks = some d := by
  have hdepth := (h.even d).depth
  simp only [List.foldlM_map, softer_depth] at hdepth
  exact hdepth

/-- Among brackets a pasted text is read as the same tokens. -/
theorem Pasted.inside [CharacterNames] (h : Pasted w e ks after) (d : Nat) : Respells (d + 1)
    (d + 1) w after ks := by
  refine (h.again (d + 1) (d + 1) (h.depth (d + 1))).resolve_right fun hbreaks => ?_
  have houtside := hbreaks.outside d rfl
  rw [h.depth d] at houtside
  cases houtside

/-- Among brackets the search for a colon passes over a pasted text. -/
theorem Pasted.heads_inside [CharacterNames] (hp : Pasted w e ks after) (outer : Nat)
    (rest : List TokenKind) :
    heads (ks ++ rest) false false (outer + 1 : Nat) = heads rest false false (outer + 1 : Nat) := by
  have hinside := (hp.even 0).inside outer false false rest
  rw [heads_map_softer] at hinside
  simpa using hinside

/-- Outside of brackets a pasted text without line ends is read as the same tokens. -/
theorem Pasted.outside [CharacterNames] (h : Pasted w e ks after) (hw : OneLine w) :
    Respells 0 0 w after ks := by
  refine (h.again 0 0 (h.depth 0)).resolve_right fun hbreaks => ?_
  obtain ⟨c, cs, rfl, hc, -, -⟩ := h.first_char
  obtain ⟨ks₁, b', v, hv, hrest, ts, hreads, hts⟩ := hbreaks.newline
    (inLine 0 [] (c :: cs ++ ['\n']) 0) ['\n'] rfl rfl rfl (.cut rfl)
  obtain ⟨pre, htext, hsize⟩ := hreads.reaches
  have hsplit : c :: cs = pre ++ v := by
    rw [hrest, ← List.append_assoc] at htext
    exact List.append_cancel_right htext
  obtain ⟨t, ht, hkind⟩ : ∃ t ∈ ts, t.kind = .newline := by
    have hmem : TokenKind.newline ∈ ts.map Token.kind := by simp [hts]
    simpa using hmem
  have hpre : pre ≠ [] := by
    rintro rfl
    cases hreads with
    | done => cases ht
    | step first run =>
      have hlt := (first.passes.trans run.reaches).offset_lt
      simp only [hsize, size_nil, Nat.add_zero] at hlt
      exact Nat.lt_irrefl _ hlt
  have hne : b'.rest.text ≠ c :: (cs ++ ['\n']) := by
    rw [hrest, ← List.cons_append, hsplit, List.append_assoc]
    intro hsame
    exact hpre (List.self_eq_append_left.mp hsame)
  have hstarted : Reads ⟨⟨c :: (cs ++ ['\n']), 0⟩, 0, true, []⟩ ts b' := reads_unindented hc hreads hne
  have hrun := run_reads hstarted
    (m := (c :: (cs ++ ['\n'])).length + 2) (n := b'.rest.text.length + 1) (by simp) (by simp)
  have hmem : t ∈ (Stream.ofText (c :: cs ++ ['\n']) 0 true).tokens := by
    rw [Stream.ofText, List.cons_append, start_eq hc, hrun]
    exact newline_mem_soften (List.mem_append_left _ ht) hkind
  have hstart := hw t hmem hkind
  have hle := hreads.start_le t ht
  obtain ⟨x, v, rfl⟩ := List.exists_cons_of_ne_nil hv
  have hpos := Char.utf8Size_pos x
  rw [hstart, hsize, hsplit, size_append, size_cons] at hle
  change size pre + _ ≤ 0 + size pre at hle
  omega

/-- What the search for a colon finds in a pasted text it finds in that text alone. -/
theorem Pasted.heads_alone [CharacterNames] (h : Pasted w e ks after) (hw : OneLine w) :
    headsBlock (Stream.ofText (w ++ ['\n']) 0 true).tokens false false 0 =
      heads (ks ++ [TokenKind.newline]) false false 0 := by
  have hagain := h.outside hw
  obtain ⟨c, cs, rfl, hc, -, -⟩ := h.first_char
  obtain ⟨place, hspells⟩ := hagain (inLine 0 [] (c :: cs ++ ['\n']) 0) ['\n'] rfl rfl rfl (.cut rfl)
  obtain ⟨ts, hstream, hts⟩ := Stream.ofText_line hc hspells
  rw [← heads_softened true, ← hts, ← headsBlock_kinds]
  exact congrArg (fun s : Stream => headsBlock s.tokens false false 0) hstream

end Pasted

/-- Lexemes that fit alone fit before a text that the last one ends before. -/
theorem Lexeme.fit_before {ls : List Lexeme} {depth : Nat} {rest : Text} (h : Fit depth ls [])
    (hlast : ∀ l ∈ ls.getLast?, ∀ c ∈ rest.head?, l.isApart c = true) : Fit depth ls rest := by
  induction ls generalizing depth with
  | nil => trivial
  | cons l ls ih =>
    obtain ⟨hsound, hapart, hlater⟩ := h
    cases ls with
    | nil => exact ⟨hsound, hlast l rfl, trivial⟩
    | cons next more =>
      refine ⟨hsound, ?_, ih hlater (by simpa using hlast)⟩
      obtain ⟨c, cs, hc⟩ : ∃ c cs, next.text = c :: cs := by
        by_cases hspace : next = .space
        · exact ⟨' ', [], by rw [hspace]; rfl⟩
        · obtain ⟨c, cs, hc, -⟩ := text_starts hlater.1 hspace
          exact ⟨c, cs, hc⟩
      rw [List.flatMap_cons, hc] at hapart ⊢
      exact hapart

theorem Lexeme.kinds_words {ls : List Lexeme} {k : TokenKind} (h : k ∈ ls.flatMap kinds) :
    k.isLayout = false := by
  obtain ⟨l, -, hk⟩ := List.mem_flatMap.mp h
  cases l with
  | word id =>
    obtain rfl := List.mem_singleton.mp hk
    unfold wordKind
    split <;> rfl
  | symbol o =>
    obtain rfl := List.mem_singleton.mp hk
    rfl
  | quoted quote content =>
    obtain rfl := List.mem_singleton.mp hk
    rfl
  | space => cases hk

theorem Identifier.IsWhole.starts {id : Text} (h : IsWhole id) :
    ∃ c cs, id = c :: cs ∧ startsLine c = true := by
  rcases h with ⟨c, cs, rfl, hc, -⟩ | ⟨c, rfl, hpicture, -⟩
  · exact ⟨c, cs, rfl, startsLine_of_isStart hc⟩
  · refine ⟨c, [], rfl, ?_⟩
    simp only [startsLine, Bool.and_eq_true, decide_eq_true_eq]
    refine ⟨⟨⟨⟨⟨⟨?_, ?_⟩, ?_⟩, ?_⟩, ?_⟩, ?_⟩, ?_⟩ <;>
      (rintro rfl; exact absurd hpicture (by decide +kernel))

/-- The tokens of a line that assigns to a name what some lexemes and a pasted text are. -/
theorem Stream.ofText_pasted {id w after : Text} {ks : List TokenKind} {d : Nat}
    {before later : List Lexeme} (hwhole : Identifier.IsWhole id) (hfree : Identifier.IsFree id)
    (hbefore : Lexeme.Fit 0 (.space :: .symbol .equal :: before)
      (w ++ (later.flatMap Lexeme.text ++ ['\n'])))
    (hdepth : depthAfter 0 before = d) (hagain : Respells d d w after ks)
    (hrejoins : Rejoins after (later.flatMap Lexeme.text ++ ['\n']))
    (hlater : Lexeme.Fit d later ['\n']) (hclosed : depthAfter d later = 0)
    (hwords : ∀ k ∈ ks, k.isLayout = false)
    (hheads : id = Keyword.matchWord.text ∨ id = Keyword.caseWord.text →
      heads (before.flatMap Lexeme.kinds ++ ks ++ later.flatMap Lexeme.kinds ++ [TokenKind.newline])
        false false 0 = false) :
    ∃ ts, Stream.ofText (id ++ (' ' :: '=' :: before.flatMap Lexeme.text ++
        (w ++ (later.flatMap Lexeme.text ++ ['\n'])))) 0 true = ⟨ts, none⟩ ∧
      ts.map Token.kind = .name id :: .operator .equal :: ((before.flatMap Lexeme.kinds).map
        TokenKind.softer ++ (ks.map TokenKind.softer ++
          ((later.flatMap Lexeme.kinds).map TokenKind.softer ++ [TokenKind.newline]))) := by
  obtain ⟨c, cs, hid, hc⟩ := hwhole.starts
  obtain ⟨k, place, hname, hk⟩ := spells_name hwhole hfree 0 0 [] ('=' :: before.flatMap Lexeme.text ++
    (w ++ (later.flatMap Lexeme.text ++ ['\n'])))
  have hopened := spells_lexemes place [] hbefore
  rw [show depthAfter 0 (.space :: .symbol .equal :: before) = d from hdepth] at hopened
  obtain ⟨place', hpasted⟩ := hagain (inLine d [] (w ++ (later.flatMap Lexeme.text ++ ['\n'])) _) _ rfl
    rfl rfl hrejoins
  have hended := spells_lexemes place' [] hlater
  rw [hclosed] at hended
  have hall := hname.trans (hopened.trans (hpasted.trans hended))
  rw [hid, List.cons_append] at hall ⊢
  obtain ⟨ts, hstream, hts⟩ := Stream.ofText_line hc hall
  refine ⟨ts, hstream, hts.trans ?_⟩
  have hline := @softened_line k
    (.operator .equal :: (before.flatMap Lexeme.kinds ++ (ks ++ later.flatMap Lexeme.kinds)))
    (c :: cs) ?_ (hid ▸ hk) ?_ rfl
  · simpa [Lexeme.kinds, show (TokenKind.operator .equal).softer = .operator .equal from rfl] using hline
  · intro x hx
    simp only [List.mem_cons, List.mem_append] at hx
    rcases hx with rfl | hx | hx | hx
    · rfl
    · exact Lexeme.kinds_words hx
    · exact hwords x hx
    · exact Lexeme.kinds_words hx
  · intro hsoft
    have hnamed : id = Keyword.matchWord.text ∨ id = Keyword.caseWord.text := by
      rcases hk with rfl | ⟨word, -, rfl, hword⟩
      · rcases hsoft with h | h <;> cases h
      · rw [← hword]
        rcases hsoft with h | h
        · exact .inl (congrArg Keyword.text (TokenKind.keyword.inj h))
        · exact .inr (congrArg Keyword.text (TokenKind.keyword.inj h))
    refine Eq.trans ?_ (hheads hnamed)
    simp only [List.cons_append, List.append_assoc]
    exact heads_passed rfl 0

end Pagewright.Syntax
