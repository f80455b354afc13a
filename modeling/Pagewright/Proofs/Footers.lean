import Mathlib.Data.List.TakeWhile
import Pagewright.Proofs.Page
import Pagewright.Proofs.Text.Trimming

namespace Pagewright.Page

open Text

/-- What ends a line. -/
inductive IsLineEnd : Text → Prop where
  | lf : IsLineEnd ['\n']
  | crlf : IsLineEnd ['\r', '\n']

/-- Strict-mode directives, each with the end of its line. -/
inductive Directives : Text → Prop where
  | none : Directives []
  | more {directive ending rest : Text}
    (isDirective : directive = "\"use strict\";".toList ∨ directive = "'use strict';".toList)
    (isEnd : IsLineEnd ending) (later : Directives rest) :
    Directives (directive ++ ending ++ rest)

/-- The address of a source map. -/
def IsAddress (t : Text) : Prop :=
  ∀ c ∈ t, isBlank c = false ∧ c ≠ '*'

/-- Spaces and tabs. -/
def IsMargin (t : Text) : Prop :=
  ∀ c ∈ t, isMargin c = true

/-- A source-map footer: a line comment, perhaps with margins, or a block comment. -/
inductive IsFooter : Text → Prop where
  | line {indent address margin : Text} (indented : IsMargin indent) (isAddress : IsAddress address)
    (followed : IsMargin margin) :
    IsFooter (indent ++ ("//# sourceMappingURL=".toList ++ (address ++ margin)))
  | block {address : Text} (isAddress : IsAddress address) :
    IsFooter ("/*# sourceMappingURL=".toList ++ (address ++ " */".toList))

/-- Footers, each on a line of its own. Only the last line may end with the text. -/
inductive Footers : Text → Prop where
  | none : Footers []
  | last {footer : Text} (isFooter : IsFooter footer) : Footers footer
  | more {footer ending rest : Text} (isFooter : IsFooter footer) (isEnd : IsLineEnd ending)
    (later : Footers rest) : Footers (footer ++ ending ++ rest)

variable {t s b rest ending footer address margin : Text} {c : Char}

namespace IsLineEnd

variable (h : IsLineEnd ending)
include h

theorem isSpace : IsSpace ending := by
  cases h <;> simp [IsSpace, isBlank]

theorem getLast? : ending.getLast? = some '\n' := by
  cases h <;> rfl

end IsLineEnd

section Directives

/-- No directive occurs where no blank stands before an `s`. -/
theorem withoutDirectives_eq_self (h : ¬[' ', 's'] <:+: t) : withoutDirectives t = t := by
  have hdouble : [' ', 's'] <:+: "\"use strict\";".toList := ⟨"\"use".toList, "trict\";".toList, rfl⟩
  have hsingle : [' ', 's'] <:+: "'use strict';".toList := ⟨"'use".toList, "trict';".toList, rfl⟩
  unfold withoutDirectives
  rw [replace_eq_self (mt hdouble.trans h), replace_eq_self (mt hsingle.trans h)]

theorem withoutDirectives_line (s t : Text) :
    withoutDirectives (s ++ '\n' :: t) = withoutDirectives s ++ '\n' :: withoutDirectives t :=
  withoutDirectives_append_cons (by decide) (by decide) s t

/-- Of directives only the ends of their lines are left. -/
theorem Directives.withoutDirectives_append {d : Text} (h : Directives d) (t : Text) :
    ∃ ends, IsSpace ends ∧ (ends = [] ∨ ends.getLast? = some '\n') ∧
      withoutDirectives (d ++ t) = ends ++ withoutDirectives t := by
  induction h with
  | none => exact ⟨[], by simp [IsSpace], .inl rfl, rfl⟩
  | @more directive ending rest isDirective isEnd later ih =>
    obtain ⟨ends, hspace, hlast, heq⟩ := ih
    have hline : withoutDirectives (directive ++ ending ++ (rest ++ t)) =
        ending ++ withoutDirectives (rest ++ t) := by
      cases isEnd with
      | lf =>
        have hnone : withoutDirectives directive = [] := by
          rcases isDirective with rfl | rfl <;> decide +kernel
        rw [List.append_assoc, List.singleton_append, withoutDirectives_line, hnone]
        rfl
      | crlf =>
        have hnone : withoutDirectives (directive ++ ['\r']) = ['\r'] := by
          rcases isDirective with rfl | rfl <;> decide +kernel
        have hcut : directive ++ ['\r', '\n'] ++ (rest ++ t) =
            (directive ++ ['\r']) ++ '\n' :: (rest ++ t) := by
          simp
        rw [hcut, withoutDirectives_line, hnone]
        rfl
    refine ⟨ending ++ ends, ?_, .inr ?_, ?_⟩
    · intro c hc
      exact (List.mem_append.mp hc).elim (isEnd.isSpace c) (hspace c)
    · rw [List.getLast?_append]
      rcases hlast with rfl | hlast
      · simpa using isEnd.getLast?
      · simp [hlast]
    · rw [List.append_assoc (directive ++ ending), hline, heq, List.append_assoc]

theorem withoutDirectives_address (h : IsAddress address) (rest : Text) (hrest : 's' ∉ rest) :
    withoutDirectives (address ++ rest) = address ++ rest := by
  apply withoutDirectives_eq_self
  have hsolid : ' ' ∉ address := by
    intro hmem
    exact absurd (h ' ' hmem).1 (by decide)
  rw [pair_infix_append]
  rintro (haddress | hlater | ⟨hlast, -⟩)
  · exact hsolid (haddress.subset (by simp))
  · exact hrest (hlater.subset (by simp))
  · exact hsolid (List.mem_of_getLast? hlast)

theorem IsMargin.not_mem (h : IsMargin margin) : 's' ∉ margin := by
  intro hmem
  exact absurd (h 's' hmem) (by decide)

/-- A line with a footer has no directive in it. -/
theorem IsFooter.withoutDirectives_append {tail : Text} (h : IsFooter footer)
    (htail : ∀ c ∈ tail, c = '\r') :
    withoutDirectives (footer ++ tail) = footer ++ tail := by
  have hfree : 's' ∉ tail := by
    intro hmem
    exact absurd (htail 's' hmem) (by decide)
  cases h with
  | @line indent address margin indented isAddress followed =>
    have hcut : indent ++ ("//# sourceMappingURL=".toList ++ (address ++ margin)) ++ tail =
        (indent ++ "//".toList) ++ '#' :: (" sourceMappingURL".toList ++
          '=' :: (address ++ (margin ++ tail))) := by
      simp
    have hindent : withoutDirectives (indent ++ "//".toList) = indent ++ "//".toList := by
      apply withoutDirectives_eq_self
      exact not_pair_infix_of_not_mem (.inr (by simp [indented.not_mem]))
    have haddress := withoutDirectives_address isAddress (margin ++ tail)
      (by simp [followed.not_mem, hfree])
    have hname : withoutDirectives " sourceMappingURL".toList = " sourceMappingURL".toList := by
      decide +kernel
    rw [hcut, withoutDirectives_append_cons (by decide) (by decide), hindent,
      withoutDirectives_append_cons (by decide) (by decide), hname, haddress]
  | @block address isAddress =>
    have hcut : "/*# sourceMappingURL=".toList ++ (address ++ " */".toList) ++ tail =
        "/*# sourceMappingURL".toList ++ '=' :: (address ++ (" */".toList ++ tail)) := by
      simp
    have haddress := withoutDirectives_address isAddress (" */".toList ++ tail)
      (by simp [hfree])
    have hname : withoutDirectives "/*# sourceMappingURL".toList = "/*# sourceMappingURL".toList := by
      decide +kernel
    rw [hcut, withoutDirectives_append_cons (by decide) (by decide), hname, haddress]

theorem IsLineEnd.exists_tail (h : IsLineEnd ending) :
    ∃ tail, ending = tail ++ ['\n'] ∧ ∀ c ∈ tail, c = '\r' := by
  cases h with
  | lf => exact ⟨[], rfl, by simp⟩
  | crlf => exact ⟨['\r'], rfl, by simp⟩

/-- Footers hold no directives. -/
theorem Footers.withoutDirectives_eq {f : Text} (h : Footers f) : withoutDirectives f = f := by
  induction h with
  | none => rfl
  | last isFooter =>
    have hnone : ∀ c ∈ ([] : Text), c = '\r' := by simp
    have h := isFooter.withoutDirectives_append hnone
    rwa [List.append_nil] at h
  | @more footer ending rest isFooter isEnd later ih =>
    obtain ⟨tail, rfl, htail⟩ := isEnd.exists_tail
    have hcut : footer ++ (tail ++ ['\n']) ++ rest = (footer ++ tail) ++ '\n' :: rest := by
      simp
    rw [hcut, withoutDirectives_line, isFooter.withoutDirectives_append htail, ih]

end Directives

section Lines

def footerName : Text := "sourceMappingURL="

theorem footerName_occurs : footerName <:+: footerMark ∧ footerName <:+: footerBlockMark :=
  ⟨⟨"//# ".toList, [], rfl⟩, ⟨"/*# ".toList, [], rfl⟩⟩

theorem stripFooterLine_eq_self {line : Text} (h : ¬footerName <:+: line) :
    stripFooterLine line = line := by
  cases hmark : footerMark.isPrefixOf? (line.dropWhile isMargin) with
  | none => simp [stripFooterLine, hmark]
  | some rest =>
    have hstart : footerMark <+: line.dropWhile isMargin :=
      ⟨rest, List.append_eq_of_isPrefixOf?_eq_some hmark⟩
    have hline := hstart.isInfix.trans (List.dropWhile_suffix isMargin).isInfix
    exact absurd (footerName_occurs.1.trans hline) h

theorem stripFooterLines_eq_self (h : ¬footerName <:+: t) : stripFooterLines t = t := by
  have hlines : ∀ ls : List Text, (∀ l ∈ ls, ¬footerName <:+: l) →
      ls.flatMap stripFooterLine = ls.flatten := by
    intro ls hls
    induction ls with
    | nil => rfl
    | cons l ls ih =>
      obtain ⟨hl, hls⟩ := List.forall_mem_cons.mp hls
      rw [List.flatMap_cons, List.flatten_cons, stripFooterLine_eq_self hl, ih hls]
  rw [stripFooterLines, hlines, flatten_lineList]
  intro l hl hname
  exact h (hname.trans (infix_of_mem_lineList hl))

theorem stripFooterLines_append (s t : Text) :
    stripFooterLines (s ++ '\n' :: t) = stripFooterLines (s ++ ['\n']) ++ stripFooterLines t := by
  rw [stripFooterLines, lineList_append, List.flatMap_append]
  rfl

theorem stripFooterLines_line {line : Text} (h : '\n' ∉ line) (t : Text) :
    stripFooterLines (line ++ '\n' :: t) =
      stripFooterLine (line ++ ['\n']) ++ stripFooterLines t := by
  rw [stripFooterLines, lineList_line h, List.flatMap_cons]
  rfl

theorem stripFooterLines_last {line : Text} (hne : line ≠ []) (h : '\n' ∉ line) :
    stripFooterLines line = stripFooterLine line := by
  rw [stripFooterLines, lineList_last hne h, List.flatMap_cons]
  simp

def EndsLine (e : Text) : Prop :=
  e = [] ∨ IsLineEnd e

theorem IsMargin.run (h : IsMargin margin) {e : Text} (he : EndsLine e) :
    IsRun isMargin margin e := by
  refine ⟨h, ?_⟩
  rcases he with rfl | he
  · simp
  · cases he <;> simp [isMargin]

theorem IsAddress.run (h : IsAddress address) (hmargin : IsMargin margin) {e : Text}
    (he : EndsLine e) : IsRun (fun c => !isBlank c) address (margin ++ e) := by
  constructor
  · intro c hc
    simp [(h c hc).1]
  · cases margin with
    | cons d margin =>
      have hd := hmargin d List.mem_cons_self
      simp only [isMargin, Bool.or_eq_true, decide_eq_true_eq] at hd
      rcases hd with rfl | rfl <;> simp [isBlank]
    | nil =>
      rcases he with rfl | he
      · simp
      · cases he <;> simp [isBlank]

/-- A line comment with a footer goes, and the end of its line with it. -/
theorem stripFooterLine_line {indent e : Text} (hindent : IsMargin indent)
    (haddress : IsAddress address) (hmargin : IsMargin margin) (he : EndsLine e) :
    stripFooterLine (indent ++ (footerMark ++ (address ++ margin)) ++ e) = [] := by
  have hrun : IsRun isMargin indent (footerMark ++ (address ++ (margin ++ e))) := by
    refine ⟨hindent, ?_⟩
    intro c hc
    obtain rfl : '/' = c := Option.some.inj hc
    rfl
  have hmark : footerMark.isPrefixOf? (footerMark ++ (address ++ (margin ++ e))) =
      some (address ++ (margin ++ e)) :=
    List.isPrefixOf?_eq_some_iff_append_eq.mpr rfl
  have hend : dropOne '\n' (dropOne '\r' e) = [] := by
    rcases he with rfl | he
    · rfl
    · cases he <;> rfl
  unfold stripFooterLine
  simp only [List.append_assoc]
  rw [hrun.takeWhile_eq.2, hmark]
  simp only
  rw [(haddress.run hmargin he).takeWhile_eq.2, (hmargin.run he).takeWhile_eq.2, hend]

/-- A block comment is no line comment. -/
theorem stripFooterLine_block (t : Text) :
    stripFooterLine (footerBlockMark ++ t) = footerBlockMark ++ t := by
  have hmark : footerMark.isPrefixOf? ((footerBlockMark ++ t).dropWhile isMargin) = none := rfl
  simp [stripFooterLine, hmark]

end Lines

section Blocks

theorem stripFooterBlocks_length (s t : Text) :
    stripFooterBlocks s.length (s ++ t) = stripFooterBlocks 0 t := by
  induction s with
  | nil => rfl
  | cons c s ih => exact ih

theorem stripFooterBlocks_other (h : ¬footerBlockMark <+: c :: t) :
    stripFooterBlocks 0 (c :: t) = c :: stripFooterBlocks 0 t := by
  have hnone : footerBlockLength? (c :: t) = none := by
    cases hmark : footerBlockMark.isPrefixOf? (c :: t) with
    | none => simp [footerBlockLength?, hmark]
    | some rest => exact absurd ⟨rest, List.append_eq_of_isPrefixOf?_eq_some hmark⟩ h
  rw [stripFooterBlocks, hnone]

theorem EndsLine.strip_blocks {e : Text} (h : EndsLine e) (t : Text) :
    stripFooterBlocks 0 (e ++ t) = e ++ stripFooterBlocks 0 t := by
  have hother {c : Char} (hc : '/' ≠ c) (t : Text) :
      stripFooterBlocks 0 (c :: t) = c :: stripFooterBlocks 0 t := by
    apply stripFooterBlocks_other
    intro hp
    exact hc (List.cons_prefix_cons.mp hp).1
  rcases h with rfl | h
  · rfl
  · cases h with
    | lf => exact hother (by decide) t
    | crlf =>
      have hrest := hother (c := '\n') (by decide) t
      exact (hother (by decide) _).trans (congrArg ('\r' :: ·) hrest)

/-- A block comment with a footer goes. -/
theorem stripFooterBlocks_block (h : IsAddress address) (t : Text) :
    stripFooterBlocks 0 (footerBlockMark ++ (address ++ " */".toList) ++ t) =
      stripFooterBlocks 0 t := by
  have hrun : IsRun (fun c => decide (c ≠ '*')) (address ++ [' ']) ("*/".toList ++ t) := by
    constructor
    · intro c hc
      rcases List.mem_append.mp hc with hc | hc
      · exact decide_eq_true (h c hc).2
      · obtain rfl := List.mem_singleton.mp hc
        rfl
    · intro c hc
      obtain rfl : '*' = c := Option.some.inj hc
      rfl
  have hprefix (m rest : Text) : m.isPrefixOf? (m ++ rest) = some rest :=
    List.isPrefixOf?_eq_some_iff_append_eq.mpr rfl
  have hblock : footerBlockMark ++ (address ++ " */".toList) ++ t =
      footerBlockMark ++ ((address ++ [' ']) ++ ("*/".toList ++ t)) := by
    simp
  have hlength : footerBlockLength? (footerBlockMark ++ (address ++ " */".toList) ++ t) =
      some (footerBlockMark ++ (address ++ " */".toList)).length := by
    unfold footerBlockLength?
    rw [hblock]
    simp only [Option.bind_eq_bind, hprefix, Option.bind_some, hrun.takeWhile_eq, Option.some.injEq,
      List.length_append]
    rfl
  obtain ⟨c, block, hc⟩ := List.exists_cons_of_ne_nil
    (List.append_ne_nil_of_left_ne_nil (show footerBlockMark ≠ [] by decide)
      (address ++ " */".toList))
  rw [hc] at hlength ⊢
  rw [List.cons_append] at hlength ⊢
  rw [stripFooterBlocks, hlength]
  exact stripFooterBlocks_length block t

/-- Where no block starts, all is kept up to the end of a line. -/
theorem stripFooterBlocks_line (h : ¬footerBlockMark <:+: s) (t : Text) :
    stripFooterBlocks 0 (s ++ '\n' :: t) = s ++ '\n' :: stripFooterBlocks 0 t := by
  have hmark : '\n' ∉ footerBlockMark := by decide
  induction s with
  | nil =>
    apply stripFooterBlocks_other
    intro hp
    exact absurd (List.prefix_nil.mp (prefix_before (s := []) hmark hp)) (by decide)
  | cons d s ih =>
    have hlater : ¬footerBlockMark <:+: s := by
      intro hs
      exact h (hs.trans (List.suffix_cons d s).isInfix)
    have hstart : ¬footerBlockMark <+: d :: (s ++ '\n' :: t) := by
      intro hp
      exact h (prefix_before (s := d :: s) hmark hp).isInfix
    rw [List.cons_append, stripFooterBlocks_other hstart, ih hlater]
    rfl

theorem stripFooterBlocks_eq_self (h : ¬footerBlockMark <:+: t) : stripFooterBlocks 0 t = t := by
  induction t with
  | nil => rfl
  | cons d t ih =>
    have hlater : ¬footerBlockMark <:+: t := by
      intro ht
      exact h (ht.trans (List.suffix_cons d t).isInfix)
    rw [stripFooterBlocks_other (mt List.IsPrefix.isInfix h), ih hlater]

end Blocks

theorem IsFooter.not_mem (h : IsFooter footer) : '\n' ∉ footer := by
  have hmargin {m : Text} (hm : IsMargin m) : '\n' ∉ m := by
    intro hmem
    exact absurd (hm '\n' hmem) (by decide)
  have haddress {u : Text} (hu : IsAddress u) : '\n' ∉ u := by
    intro hmem
    exact absurd (hu '\n' hmem).1 (by decide)
  cases h with
  | line indented isAddress followed =>
    simp [hmargin indented, haddress isAddress, hmargin followed]
  | block isAddress => simp [haddress isAddress]

/-- What is left of the line of a footer, with its end: nothing, or a block comment that goes in
its turn. -/
theorem IsFooter.strip_line (h : IsFooter footer) {e : Text} (he : EndsLine e) (t : Text) :
    ∃ e', IsSpace e' ∧
      stripFooterBlocks 0 (stripFooterLine (footer ++ e) ++ t) = e' ++ stripFooterBlocks 0 t := by
  have hspace : IsSpace e := by
    rcases he with rfl | he
    · simp [IsSpace]
    · exact he.isSpace
  cases h with
  | line indented isAddress followed =>
    refine ⟨[], by simp [IsSpace], ?_⟩
    have hnone := stripFooterLine_line indented isAddress followed he
    exact congrArg (fun line => stripFooterBlocks 0 (line ++ t)) hnone
  | @block address isAddress =>
    have hkept : stripFooterLine (footerBlockMark ++ (address ++ " */".toList) ++ e) =
        footerBlockMark ++ (address ++ " */".toList) ++ e := by
      rw [List.append_assoc]
      exact stripFooterLine_block _
    have hblock := stripFooterBlocks_block isAddress (e ++ t)
    rw [← List.append_assoc, he.strip_blocks] at hblock
    refine ⟨e, hspace, ?_⟩
    exact (congrArg (fun line => stripFooterBlocks 0 (line ++ t)) hkept).trans hblock

/-- Nothing but blanks is left of footers. -/
theorem Footers.strip {f : Text} (h : Footers f) :
    IsSpace (stripFooterBlocks 0 (stripFooterLines f)) := by
  induction h with
  | none => simp [IsSpace, stripFooterLines, lineList, stripFooterBlocks]
  | @last footer isFooter =>
    have hne : footer ≠ [] := by
      cases isFooter <;> simp
    obtain ⟨e, hspace, heq⟩ := isFooter.strip_line (.inl rfl) []
    rw [stripFooterLines_last hne isFooter.not_mem]
    simp only [List.append_nil] at heq
    rw [heq]
    simpa [stripFooterBlocks] using hspace
  | @more footer ending rest isFooter isEnd later ih =>
    obtain ⟨e, hspace, heq⟩ := isFooter.strip_line (.inr isEnd) (stripFooterLines rest)
    obtain ⟨tail, rfl, htail⟩ := isEnd.exists_tail
    have hline : '\n' ∉ footer ++ tail := by
      intro hmem
      rcases List.mem_append.mp hmem with hmem | hmem
      · exact isFooter.not_mem hmem
      · exact absurd (htail '\n' hmem) (by decide)
    have hcut : footer ++ (tail ++ ['\n']) ++ rest = (footer ++ tail) ++ '\n' :: rest := by
      simp
    rw [← List.append_assoc] at heq
    rw [hcut, stripFooterLines_line hline, heq]
    intro c hc
    exact (List.mem_append.mp hc).elim (hspace c) (ih c)

/-- A text that footers stand behind on lines of their own is kept. -/
theorem strip_append (hname : ¬footerName <:+: s)
    (hends : t = [] ∨ s = [] ∨ s.getLast? = some '\n') :
    stripFooterBlocks 0 (stripFooterLines (s ++ t)) =
      s ++ stripFooterBlocks 0 (stripFooterLines t) := by
  have hself := stripFooterLines_eq_self hname
  have hmark : ¬footerBlockMark <:+: s := mt footerName_occurs.2.trans hname
  rcases hends with rfl | rfl | hlast
  · rw [List.append_nil, hself, stripFooterBlocks_eq_self hmark]
    simp [stripFooterLines, lineList, stripFooterBlocks]
  · rfl
  · obtain ⟨s, rfl⟩ := List.getLast?_eq_some_iff.mp hlast
    have hmark : ¬footerBlockMark <:+: s := by
      intro hs
      exact hmark (hs.trans (List.prefix_append s _).isInfix)
    rw [List.append_assoc, List.singleton_append, stripFooterLines_append, hself, List.append_assoc,
      List.singleton_append, stripFooterBlocks_line hmark]
    simp

theorem infix_of_space {target : Text} (hs : IsSpace s) (hne : target ≠ [])
    (ht : ∀ c ∈ target, isBlank c = false) (h : target <:+: s ++ t) : target <:+: t := by
  induction s with
  | nil => exact h
  | cons c s ih =>
    rcases List.infix_cons_iff.mp h with hstart | hlater
    · cases target with
      | nil => exact absurd rfl hne
      | cons d target =>
        obtain rfl := (List.cons_prefix_cons.mp hstart).1
        exact absurd (hs d List.mem_cons_self) (by simp [ht d])
    · exact ih (fun d hd => hs d (List.mem_cons_of_mem c hd)) hlater

/-- Cleaning an asset takes away the directives in front of it and the footers behind it, and of the
text in between outer blanks. That text has no directive and no part of a footer in it, and ends a
line if footers follow. Without any directive or footer a text is only trimmed. -/
theorem stripAsset_around {d f : Text} (hd : Directives d) (hf : Footers f)
    (hdouble : ¬"\"use strict\";".toList <:+: b) (hsingle : ¬"'use strict';".toList <:+: b)
    (hname : ¬"sourceMappingURL=".toList <:+: b)
    (hends : f = [] ∨ b = [] ∨ b.getLast? = some '\n') :
    stripAsset (d ++ b ++ f) = trim b := by
  have hself {t : Text} (ht : t <:+: b) : withoutDirectives t = t := by
    rw [withoutDirectives, replace_eq_self (mt (List.IsInfix.trans · ht) hdouble),
      replace_eq_self (mt (List.IsInfix.trans · ht) hsingle)]
  have hbody : withoutDirectives (b ++ f) = b ++ f := by
    rcases hends with rfl | rfl | hlast
    · rw [List.append_nil, hself (List.infix_refl b)]
    · exact hf.withoutDirectives_eq
    · obtain ⟨s, rfl⟩ := List.getLast?_eq_some_iff.mp hlast
      rw [List.append_assoc, List.singleton_append, withoutDirectives_line, hf.withoutDirectives_eq,
        hself (List.prefix_append s _).isInfix]
  obtain ⟨ends, hspace, hlast, heq⟩ := hd.withoutDirectives_append (b ++ f)
  have hsolid : ∀ c ∈ footerName, isBlank c = false := by
    have hall : footerName.all (fun c => !isBlank c) = true := by decide
    simpa using hall
  have hname : ¬footerName <:+: ends ++ b :=
    mt (infix_of_space hspace (by decide) hsolid) hname
  have hends : f = [] ∨ ends ++ b = [] ∨ (ends ++ b).getLast? = some '\n' := by
    rcases hends with rfl | rfl | hends
    · exact .inl rfl
    · rw [List.append_nil]
      exact .inr hlast
    · right
      right
      rw [List.getLast?_append, hends]
      rfl
  rw [stripAsset_eq, List.append_assoc, heq, hbody, ← List.append_assoc, strip_append hname hends]
  exact trim_around hspace hf.strip b

theorem isAddress_iff_all :
    IsAddress t ↔ (t.all fun c => !isBlank c && decide (c ≠ '*')) = true := by
  simp [IsAddress]

def sampleDirectives : Text :=
  "\"use strict\";\n'use strict';\r\n"

def sampleBody : Text :=
  "var app = 1;\n"

def sampleFooters : Text :=
  "  //# sourceMappingURL=app.js.map\t\r\n/*# sourceMappingURL=app.css.map */"

theorem stripAsset_around_sample :
    Directives sampleDirectives ∧ Footers sampleFooters ∧
      ¬"\"use strict\";".toList <:+: sampleBody ∧ ¬"'use strict';".toList <:+: sampleBody ∧
      ¬"sourceMappingURL=".toList <:+: sampleBody ∧ sampleBody.getLast? = some '\n' ∧
      stripAsset (sampleDirectives ++ sampleBody ++ sampleFooters) = trim sampleBody := by
  have hfirst : Directives ("'use strict';".toList ++ ['\r', '\n'] ++ []) :=
    .more (.inr rfl) .crlf .none
  have hdirectives : Directives ("\"use strict\";".toList ++ ['\n'] ++ _) :=
    .more (.inl rfl) .lf hfirst
  have hline : IsFooter ("  ".toList ++ (_ ++ ("app.js.map".toList ++ ['\t']))) :=
    .line (List.all_eq_true.mp rfl) (isAddress_iff_all.mpr rfl) (List.all_eq_true.mp rfl)
  have hblock : IsFooter (_ ++ ("app.css.map".toList ++ _)) :=
    .block (isAddress_iff_all.mpr rfl)
  have hfooters : Footers (_ ++ ['\r', '\n'] ++ _) :=
    .more hline .crlf (.last hblock)
  have hdouble : ¬"\"use strict\";".toList <:+: sampleBody := by decide +kernel
  have hsingle : ¬"'use strict';".toList <:+: sampleBody := by decide +kernel
  have hname : ¬"sourceMappingURL=".toList <:+: sampleBody := by decide +kernel
  have hends : sampleBody.getLast? = some '\n' := by decide +kernel
  exact ⟨hdirectives, hfooters, hdouble, hsingle, hname, hends,
    stripAsset_around hdirectives hfooters hdouble hsingle hname (.inr (.inr hends))⟩

end Pagewright.Page
