import Pagewright.Proofs.Lexing.Lexeme
import Pagewright.Proofs.Reread.Numbers

namespace Pagewright.Syntax

open Text

namespace Rejoins

variable {u u' w : Text} {c c' : Char}

/-- A text without separators that comes next again came next before. -/
theorem isPrefixOf {p : Text} (h : Rejoins u u') (hp : ∀ c ∈ p, isSeparator c = false)
    (hu : p.isPrefixOf u' = true) : p.isPrefixOf u = true := by
  induction p generalizing u u' with
  | nil => rfl
  | cons c p ih =>
    cases u' with
    | nil => cases hu
    | cons d u' =>
      simp only [List.isPrefixOf, Bool.and_eq_true, beq_iff_eq] at hu
      obtain ⟨rfl, hrest⟩ := hu
      have hc := hp c List.mem_cons_self
      cases h with
      | same => simpa using hrest
      | cut separator =>
        rw [hc] at separator
        cases separator
      | cons _ later =>
        simpa using ih later (fun d hd => hp d (List.mem_cons_of_mem _ hd)) hrest

end Rejoins

theorem isPart_separator {c : Char} (hc : isSeparator c = true) : Identifier.isPart c = false := by
  rcases isSeparator_eq hc with rfl | rfl | rfl | rfl <;> decide

theorem isQuote_separator {c : Char} (hc : isSeparator c = true) : isQuote c = false :=
  separator_all (by decide) c hc

/-- A name is read up to what is no part of a name. -/
theorem readName_again {r : Rest} {u : Text} (offset : Nat)
    (hu : Rejoins (r.text.dropWhile Identifier.isPart) u) :
    (readName ⟨r.text.takeWhile Identifier.isPart ++ u, offset⟩).1.kind = (readName r).1.kind ∧
      (readName ⟨r.text.takeWhile Identifier.isPart ++ u, offset⟩).2.text = u := by
  have hrun := isRun_takeWhile Identifier.isPart r.text
  have hrun' : IsRun Identifier.isPart (r.text.takeWhile Identifier.isPart) u := by
    refine ⟨hrun.all, fun c hc => ?_⟩
    have hno : u.head?.any Identifier.isPart = false := by
      refine hu.fails (fun c => isPart_separator) ?_
      cases hd : (r.text.dropWhile Identifier.isPart).head? with
      | none => rfl
      | some d => simpa using hrun.ends d hd
    simpa [Option.mem_def.mp hc] using hno
  simp only [readName, hrun'.takeWhile_eq, true_and]

theorem kindOfLetters_separator {c d : Char} (h : isSeparator c = true ∨ isSeparator d = true) :
    kindOfLetters? c d = none :=
  h.elim (fun h => kindOfLetters_mark (isPart_separator h))
    fun h => kindOfLetters_part (isPart_separator h)

/-- No literal starts where none did. -/
theorem Rejoins.literalStart {u u' : Text} (h : Rejoins u u') (hno : literalStart? u = none) :
    literalStart? u' = none := by
  cases h with
  | same => exact hno
  | cut hc => exact literalStart_mark (isQuote_separator hc) (isPart_separator hc)
  | @cons v v' c later =>
    have hq : isQuote c = false := by
      by_contra hq
      simp [literalStart?.eq_def, show isQuote c = true by simpa using hq] at hno
    simp only [literalStart?, hq, Bool.false_eq_true, if_false] at hno
    refine literalStart_none hq (fun d hd hdq => ?_) fun d e hd he heq => ?_
    · obtain ⟨w', rfl⟩ := List.head?_eq_some_iff.mp hd
      cases v with
      | nil => simp [isQuote_separator later.nil_cons] at hdq
      | cons d' v =>
        rcases later.of_cons with hc | ⟨rfl, -⟩
        · simp [isQuote_separator hc] at hdq
        · simpa [hdq] using hno
    · obtain ⟨w', rfl⟩ := List.head?_eq_some_iff.mp hd
      obtain ⟨w', rfl⟩ := List.head?_eq_some_iff.mp (by simpa using he)
      cases v with
      | nil => exact kindOfLetters_separator (.inr later.nil_cons)
      | cons d' v =>
        rcases later.of_cons with hc | ⟨rfl, hrest⟩
        · exact kindOfLetters_separator (.inr hc)
        · have hev : v.head?.any isQuote = true := by
            by_contra hno
            have hnone := hrest.fails (p := isQuote) (fun c => isQuote_separator) (by simpa using hno)
            simp [heq] at hnone
          by_cases hdq : isQuote d = true
          · rcases isQuote_eq hdq with rfl | rfl
            · exact kindOfLetters_part (by decide)
            · exact kindOfLetters_part (by decide)
          · simpa [hdq, hev] using hno

/-- No literal has more than two letters before its quotes. -/
theorem literalStart_le {t : Text} {kind : LiteralKind} {raw : Bool} {n : Nat}
    (h : literalStart? t = some (kind, raw, n)) : n ≤ 2 := by
  unfold literalStart? at h
  split at h
  · cases h
  · split at h
    · obtain ⟨-, -, rfl⟩ : LiteralKind.plain = kind ∧ false = raw ∧ 0 = n := by simpa using h
      exact Nat.zero_le 2
    · split at h
      · cases h
      · split at h
        · obtain ⟨_, -, heq⟩ := Option.map_eq_some_iff.mp h
          obtain ⟨-, -, rfl⟩ : _ ∧ _ ∧ 1 = n := by simpa using heq
          decide
        · split at h
          · obtain ⟨_, -, heq⟩ := Option.map_eq_some_iff.mp h
            obtain ⟨-, -, rfl⟩ : _ ∧ _ ∧ 2 = n := by simpa using heq
            decide
          · cases h

/-- Where a literal starts is seen by its letters and its first quote. -/
theorem literalStart_prefix {letters rest rest' : Text} {quote : Char} {kind : LiteralKind}
    {raw : Bool} (hquote : isQuote quote = true)
    (h : literalStart? (letters ++ quote :: rest) = some (kind, raw, letters.length)) :
    literalStart? (letters ++ quote :: rest') = some (kind, raw, letters.length) := by
  match letters, h with
  | [], h => simpa [literalStart?, hquote] using h
  | [c], h =>
    simp only [List.singleton_append, literalStart?, hquote, if_true] at h ⊢
    exact h
  | [c, d], h =>
    simp only [List.cons_append, List.nil_append, literalStart?, List.head?_cons, Option.any_some,
      hquote, if_true] at h ⊢
    exact h
  | c :: d :: e :: letters, h =>
    have hle := literalStart_le h
    simp at hle

theorem Rest.next?_cons {c : Char} {cs : Text} {offset : Nat}
    (h : c = '\r' → cs.head? ≠ some '\n') : Rest.next? ⟨c :: cs, offset⟩ =
      some (if c = '\r' then '\n' else c, ⟨cs, offset + c.utf8Size⟩) := by
  unfold Rest.next?
  split
  · rename_i heq
    cases heq
  · rename_i heq
    obtain ⟨htext, -⟩ := Rest.mk.inj heq
    obtain ⟨rfl, rfl⟩ := List.cons.inj htext
    exact absurd rfl (h rfl)
  · rename_i heq
    obtain ⟨htext, hoffset⟩ := Rest.mk.inj heq
    obtain ⟨rfl, rfl⟩ := List.cons.inj htext
    rw [hoffset]

/-- The next character is the same where it is followed by the same one. -/
theorem Rest.next?_ahead {r r' : Rest} {c : Char} (h : r.next? = some (c, r')) :
    ∃ w, w ≠ [] ∧ r.text = w ++ r'.text ∧ ∀ u offset, u.head? = r'.text.head? →
      ∃ place, Rest.next? ⟨w ++ u, offset⟩ = some (c, ⟨u, place⟩) := by
  obtain ⟨t, offset⟩ := r
  unfold Rest.next? at h
  split at h
  · cases h
  · rename_i cs _ heq
    obtain ⟨rfl, rfl⟩ := Prod.mk.inj (Option.some.inj h)
    obtain ⟨rfl, -⟩ := Rest.mk.inj heq
    exact ⟨['\r', '\n'], by simp, rfl, fun u offset' _ => ⟨offset' + 2, rfl⟩⟩
  · rename_i d cs _ hne heq
    obtain ⟨rfl, rfl⟩ := Prod.mk.inj (Option.some.inj h)
    obtain ⟨rfl, -⟩ := Rest.mk.inj heq
    refine ⟨[d], by simp, rfl, fun u offset' hu => ⟨offset' + d.utf8Size, next?_cons ?_⟩⟩
    intro hd hnewline
    obtain ⟨cs', rfl⟩ := List.head?_eq_some_iff.mp (hu.symm.trans hnewline)
    exact hne cs' hd rfl

theorem Rest.next?_eq {r r' : Rest} {c : Char} (h : r.next? = some (c, r')) (hc : c ≠ '\n') :
    r.text = c :: r'.text := by
  obtain ⟨t, offset⟩ := r
  unfold Rest.next? at h
  split at h
  · cases h
  · obtain ⟨rfl, -⟩ := Prod.mk.inj (Option.some.inj h)
    exact absurd rfl hc
  · rename_i heq
    obtain ⟨rfl, rfl⟩ := Prod.mk.inj (Option.some.inj h)
    obtain ⟨rfl, -⟩ := Rest.mk.inj heq
    split at hc
    · exact absurd rfl hc
    · rename_i hr
      simp [hr]

theorem isPrefixOf_append {p w : Text} (h : p.length ≤ w.length) (u u' : Text) :
    p.isPrefixOf (w ++ u) = p.isPrefixOf (w ++ u') := by
  induction p generalizing w with
  | nil => rfl
  | cons c p ih =>
    cases w with
    | nil => simp at h
    | cons d w =>
      simp only [List.cons_append, List.isPrefixOf]
      rw [ih (by simpa using h)]

def quotes (tripled : Bool) : Nat :=
  if tripled then 3 else 1

theorem quotes_pos (tripled : Bool) : 0 < quotes tripled := by
  cases tripled <;> decide

/-- The quotes that close a literal end its body. -/
theorem readLiteralBody_close {quote : Char} (hquote : isQuote quote = true) (tripled : Bool)
    (fuel : Nat) (u : Text) (offset : Nat) :
    readLiteralBody quote tripled (fuel + 1)
      ⟨List.replicate (quotes tripled) quote ++ u, offset⟩ =
        .ok ([], ⟨u, offset + quotes tripled⟩) := by
  have hplain : quote ≠ '\r' ∧ quote ≠ '\\' ∧ quote ≠ '\n' ∧ quote.utf8Size = 1 := by
    rcases isQuote_eq hquote with rfl | rfl <;> exact ⟨by decide, by decide, by decide, rfl⟩
  obtain ⟨hr, hslash, hline, hsize⟩ := hplain
  cases tripled with
  | false =>
    simp [readLiteralBody, quotes, Rest.next_plain hr, hslash, hline, hsize]
  | true =>
    simp [readLiteralBody, quotes, List.replicate, Rest.next_plain hr, hslash, hsize, Rest.skip]

/-- The body of a literal is read up to its closing quotes, whatever follows. -/
theorem again_readLiteralBody {quote : Char} (hquote : isQuote quote = true) {tripled : Bool}
    {fuel : Nat} {r r' : Rest} {content : Text}
    (h : readLiteralBody quote tripled fuel r = .ok (content, r')) :
    ∃ w, r.text = w ++ r'.text ∧ quotes tripled ≤ w.length ∧
      ∀ u offset fuel', w.length < fuel' → ∃ place,
        readLiteralBody quote tripled fuel' ⟨w ++ u, offset⟩ = .ok (content, ⟨u, place⟩) := by
  induction fuel generalizing r content with
  | zero => cases h
  | succ fuel ih =>
    unfold readLiteralBody at h
    split at h
    · cases h
    · rename_i c r₁ hc
      obtain ⟨w, hw, hr, hnext⟩ := Rest.next?_ahead hc
      split at h
      · rename_i hslash
        split at h
        · rename_i hnone
          cases fuel with
          | zero => cases h
          | succ fuel => simp [readLiteralBody, hnone] at h
        · rename_i d r₂ hd
          obtain ⟨w', hw', hr', hnext'⟩ := Rest.next?_ahead hd
          obtain ⟨⟨later, r₃⟩, hlater, h⟩ := bind_eq_ok_iff.mp h
          obtain ⟨rfl, rfl⟩ := Prod.mk.inj (Except.ok.inj h)
          obtain ⟨v, hv, hlen, hagain⟩ := ih hlater
          have hpos := quotes_pos tripled
          refine ⟨w ++ (w' ++ v), by rw [hr, hr', hv]; simp, by simp only [List.length_append]; omega,
            fun u offset fuel' hfuel => ?_⟩
          have hwlen := List.length_pos_iff.mpr hw
          obtain ⟨fuel', rfl⟩ : ∃ n, fuel' = n + 1 := ⟨fuel' - 1, by omega⟩
          simp only [List.length_append] at hfuel
          obtain ⟨place, hread⟩ := hnext (w' ++ (v ++ u)) offset (by
            obtain ⟨x, xs, rfl⟩ := List.exists_cons_of_ne_nil hw'
            rw [hr']
            rfl)
          obtain ⟨place', hread'⟩ := hnext' (v ++ u) place (by
            obtain ⟨x, xs, rfl⟩ := List.exists_cons_of_length_pos (by omega : 0 < v.length)
            rw [hv]
            rfl)
          obtain ⟨place'', hbody⟩ := hagain u place' fuel' (by omega)
          refine ⟨place'', ?_⟩
          simp only [List.append_assoc]
          rw [readLiteralBody, hread]
          simp only
          rw [if_pos hslash, hread']
          simp only
          rw [hbody]
          rfl
      · split at h
        · cases h
        · split at h
          · rename_i hclose
            obtain ⟨rfl, rfl⟩ := Prod.mk.inj (Except.ok.inj h)
            refine ⟨List.replicate (quotes tripled) quote, ?_, by simp, fun u offset fuel' hfuel => ?_⟩
            · obtain ⟨rfl, hclose⟩ := hclose
              have hc : c ≠ '\n' := by rcases isQuote_eq hquote with rfl | rfl <;> decide
              rw [Rest.next?_eq ‹_› hc]
              cases tripled with
              | false => rfl
              | true =>
                have hclose : [c, c] <+: r₁.text := by simpa using hclose
                obtain ⟨more, hmore⟩ := hclose
                simp [quotes, ← hmore, Rest.skip, List.replicate]
            · obtain ⟨fuel', rfl⟩ : ∃ n, fuel' = n + 1 := ⟨fuel' - 1, by omega⟩
              exact ⟨_, readLiteralBody_close hquote tripled fuel' u offset⟩
          · rename_i hslash hline hopen
            obtain ⟨⟨later, r₂⟩, hlater, h⟩ := bind_eq_ok_iff.mp h
            obtain ⟨rfl, rfl⟩ := Prod.mk.inj (Except.ok.inj h)
            obtain ⟨v, hv, hlen, hagain⟩ := ih hlater
            have hpos := quotes_pos tripled
            have hwlen := List.length_pos_iff.mpr hw
            refine ⟨w ++ v, by rw [hr, hv, List.append_assoc], by rw [List.length_append]; omega,
              fun u offset fuel' hfuel => ?_⟩
            obtain ⟨fuel', rfl⟩ : ∃ n, fuel' = n + 1 := ⟨fuel' - 1, by omega⟩
            rw [List.length_append] at hfuel
            have hhead : (v ++ u).head? = r₁.text.head? := by
              rw [hv]
              obtain ⟨d, v, rfl⟩ := List.exists_cons_of_length_pos (by omega : 0 < v.length)
              rfl
            obtain ⟨place, hread⟩ := hnext (v ++ u) offset hhead
            obtain ⟨place', hbody⟩ := hagain u place fuel' (by omega)
            have hopen' : ¬(c = quote ∧ (!tripled ∨ [quote, quote].isPrefixOf (v ++ u) = true)) := by
              cases tripled with
              | false => simpa using hopen
              | true =>
                have hlen' : [quote, quote].length ≤ v.length := Nat.le_trans (by decide : 2 ≤ 3) hlen
                rwa [isPrefixOf_append hlen' u r₂.text, ← hv]
            refine ⟨place', ?_⟩
            rw [List.append_assoc, readLiteralBody, hread]
            simp only
            rw [if_neg hslash, if_neg hline, if_neg hopen', hbody]
            rfl

/-- A literal is read again whatever follows its closing quotes. -/
theorem again_readLiteral {kind : LiteralKind} {raw : Bool} {letters : Nat} {r r' : Rest} {t : Token}
    (hl : literalStart? r.text = some (kind, raw, letters))
    (h : readLiteral kind raw letters r = .ok (t, r')) :
    ∃ w, r.text = w ++ r'.text ∧ ∀ u offset, Rejoins r'.text u →
      literalStart? (w ++ u) = some (kind, raw, letters) ∧ ∃ t' place,
        readLiteral kind raw letters ⟨w ++ u, offset⟩ = .ok (t', ⟨u, place⟩) ∧ t'.kind = t.kind := by
  obtain ⟨text, offset⟩ := r
  obtain ⟨v, quote, rest, hr, rfl, hquote, -⟩ := literalStart_eq hl
  obtain rfl : text = v ++ quote :: rest := hr
  have hnarrow : isSeparator quote = false := by
    rcases isQuote_eq hquote with rfl | rfl <;> rfl
  unfold readLiteral at h
  simp only [Rest.skip, List.drop_left, List.headD_cons] at h
  obtain ⟨⟨content, after⟩, hbody, h⟩ := bind_eq_ok_iff.mp h
  obtain ⟨rfl, rfl⟩ := Prod.mk.inj (Except.ok.inj h)
  generalize htripled : [quote, quote, quote].isPrefixOf (quote :: rest) = tripled at hbody ⊢
  obtain ⟨w, hw, -, hagain⟩ := again_readLiteralBody hquote hbody
  have hopen : quote :: rest = List.replicate (quotes tripled) quote ++ (w ++ after.text) := by
    cases tripled with
    | false => simpa [quotes] using hw
    | true =>
      obtain ⟨more, hmore⟩ := List.isPrefixOf_iff_prefix.mp htripled
      simpa [← hmore, quotes, List.replicate] using hw
  refine ⟨v ++ (List.replicate (quotes tripled) quote ++ w), by simp [hopen], fun u offset' hu => ?_⟩
  have hfirst : List.replicate (quotes tripled) quote =
      quote :: List.replicate (quotes tripled - 1) quote := by
    cases tripled <;> rfl
  refine ⟨by simpa [hfirst] using literalStart_prefix hquote hl, ?_⟩
  have hagree : [quote, quote, quote].isPrefixOf
      (List.replicate (quotes tripled) quote ++ (w ++ u)) = tripled := by
    cases tripled with
    | true => simp [quotes, List.replicate, List.isPrefixOf]
    | false =>
      by_contra hyes
      have hlater := (hu.append w).append (List.replicate (quotes false) quote)
      rw [← hopen] at hlater
      rw [hlater.isPrefixOf (by simpa using hnarrow) (by simpa using hyes)] at htripled
      cases htripled
  obtain ⟨place, hread⟩ := hagain u (offset' + v.length + quotes tripled)
    ((w ++ u).length + 1) (by simp only [List.length_append]; omega)
  refine ⟨⟨.literal ⟨kind, raw, tripled, content⟩, offset', place⟩, place, ?_, rfl⟩
  unfold readLiteral
  have hhead : (List.replicate (quotes tripled) quote ++ (w ++ u)).headD '"' = quote := by
    rw [hfirst]
    rfl
  have hskip : (List.replicate (quotes tripled) quote ++ (w ++ u)).drop (quotes tripled) = w ++ u :=
    List.drop_left' (List.length_replicate)
  have hquotes : (if tripled = true then 3 else 1) = quotes tripled := rfl
  simp only [Rest.skip, List.append_assoc, List.drop_left, hhead, hagree, hquotes, hskip, hread]
  rfl

namespace Operator

variable {c : Char} {t rest u : Text} {o : Operator}

/-- An operator that comes next again came next before. -/
theorem isPrefixOf_again (h : Rejoins rest u) (hu : o.text.isPrefixOf (c :: u) = true) :
    o.text.isPrefixOf (c :: rest) = true := by
  have htail : ∀ o : Operator, (o.text.drop 1).all (!isSeparator ·) = true := by
    intro o
    cases o <;> rfl
  cases htext : o.text with
  | nil => rfl
  | cons d ds =>
    have hds := htail o
    rw [htext] at hu hds
    simp only [List.isPrefixOf, Bool.and_eq_true] at hu ⊢
    exact ⟨hu.1, h.isPrefixOf (by simpa using hds) hu.2⟩

theorem isPrefixOf?_eq_none_again (h : Rejoins rest u)
    (hno : o.text.isPrefixOf? (c :: rest) = none) : o.text.isPrefixOf? (c :: u) = none := by
  by_contra hsome
  obtain ⟨v, hv⟩ := Option.ne_none_iff_exists'.mp hsome
  have hu : o.text.isPrefixOf (c :: u) = true :=
    List.isPrefixOf_iff_prefix.mpr ⟨v, List.append_eq_of_isPrefixOf?_eq_some hv⟩
  obtain ⟨v', hv'⟩ := List.isPrefixOf_iff_prefix.mp (isPrefixOf_again h hu)
  rw [List.isPrefixOf?_eq_some_iff_append_eq.mpr hv'] at hno
  cases hno

/-- The longest operator is the same where what follows it rejoins. -/
theorem again_leading (h : leading? t = some (o, rest)) (hu : Rejoins rest u) :
    leading? (o.text ++ u) = some (o, u) := by
  obtain ⟨before, p, after, hall, hp, hbefore⟩ := List.findSome?_eq_some_iff.mp h
  obtain ⟨r, hr, heq⟩ := Option.map_eq_some_iff.mp hp
  obtain ⟨rfl, rfl⟩ := Prod.mk.inj heq
  obtain rfl := List.append_eq_of_isPrefixOf?_eq_some hr
  refine List.findSome?_eq_some_iff.mpr ⟨before, p, after, hall, ?_, fun q hq => ?_⟩
  · rw [List.isPrefixOf?_eq_some_iff_append_eq.mpr rfl]
    rfl
  · obtain ⟨c, cs, hc⟩ := List.exists_cons_of_ne_nil p.text_narrow.1
    have hno := Option.map_eq_none_iff.mp (hbefore q hq)
    rw [hc, List.cons_append] at hno
    rw [hc, List.cons_append, isPrefixOf?_eq_none_again (hu.append cs) hno]
    rfl

theorem leading_none_again (h : leading? (c :: rest) = none) (hu : Rejoins rest u) :
    leading? (c :: u) = none := by
  rw [leading?, List.findSome?_eq_none_iff] at h ⊢
  intro o ho
  rw [isPrefixOf?_eq_none_again hu (Option.map_eq_none_iff.mp (h o ho))]
  rfl

end Operator
end Pagewright.Syntax
