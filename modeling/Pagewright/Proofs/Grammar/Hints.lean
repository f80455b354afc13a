import Pagewright.Proofs.Grammar.Heads
import Pagewright.Proofs.Grammar.Openings
import Pagewright.Proofs.Lexing.Paths

namespace Pagewright.Syntax

open Text

/-- An expression of all words between two places of a text. -/
def Expr.IsWhole (t : Text) (e : Expr) : Prop :=
  ∃ c c' : Cursor, c.At t ∧ Whole c c' e

section Texts

variable {t : Text} {c c' : Cursor} {e : Expr}

/-- The words between two cursors start where the first of them does, with no blank. -/
theorem Cursor.At.upto {ts : List Token} (h : c.At t) (hts : c.Takes ts c') (hne : ts ≠ [])
    (hwords : ∀ x ∈ ts, x.kind.isLayout = false) :
    ∃ r after, Upto r ts c'.stop ∧ r.text = t.slice c.here c'.stop ++ after ∧
      r.offset + size (t.slice c.here c'.stop) = c'.stop ∧ ∀ d ∈ r.text.head?, isBlank d = false := by
  obtain ⟨-, hcovers, -⟩ := h.words hts hne hwords
  obtain ⟨before, after, ht, hbefore, hsize⟩ := slice_of_hasRange hcovers.hasRange
  generalize t.slice c.here c'.stop = u at ht hsize ⊢
  obtain ⟨r, hr, -, hspelled⟩ := h.spelled
  obtain ⟨x, xs, rfl⟩ := List.exists_cons_of_ne_nil hne
  rw [hts.tokens] at hspelled
  obtain ⟨hword, hlater⟩ := List.forall_mem_cons.mp hwords
  cases hspelled with
  | layout kind =>
    rw [kind] at hword
    cases hword
  | @word _ r₁ r₂ gap w _ _ isGap hgap nonempty past start stop written isRead later =>
    have hhere : c.here = r₁.offset := by simp [Cursor.here, hts.tokens, start]
    obtain ⟨v, hv, hoffset⟩ := hr.trans ⟨gap, hgap⟩
    refine ⟨r₁, after, ⟨⟨c'.tokens, ?_⟩, hwords, ?_⟩, ?_, ?_, ?_⟩
    · exact .word isGap_nil (.refl r₁) nonempty past start stop written isRead later
    · rw [hts.stop]
      simp [List.getLast?_cons]
    · have hv : t = v ++ r₁.text := hv
      have hsame : size v = size before := by
        rw [hbefore, hhere, hoffset]
        exact (Nat.zero_add _).symm
      rw [List.append_assoc] at ht
      exact (append_inj_of_size (hv.symm.trans ht) hsame).2
    · rw [← hhere]
      exact hsize
    · obtain ⟨d, ds, hd, hsolid, -⟩ := isRead.solid hword
      simpa [hd] using hsolid

/-- Behind a dotted name that an expression opens with, a bracket is that of a subscript of the
name, and no quote is read. -/
theorem Opens.of_mark {ns us : List Token} {x : Token} {path rest : Text} {mark : Char}
    {r r' : Rest} (h : Opens (ns ++ x :: us) e) (hns : Dotted ns path) (hread : x.IsRead r r')
    (hr : r.text = mark :: rest) (hmark : mark = '[' ∨ isQuote mark = true) :
    mark = '[' ∧ ∃ f : Expr, f.Leads e ∧ f.subscripted? = some path := by
  rcases hmark with rfl | hmark
  · have hapart : ∀ d ∈ rest.head?, (Lexeme.symbol .leftBracket).isApart d = true := by
      intro d _
      simp [Lexeme.isApart, Operator.leftBracket_goesOn]
    obtain ⟨hx, -⟩ := hread.symbol (o := .leftBracket) hr hapart
    obtain ⟨-, hleads⟩ := h.behind hns rfl (by rw [hx]; rfl) (by rw [hx]; rfl)
    exact ⟨rfl, hleads⟩
  · obtain ⟨l, hx⟩ := hread.quoted hr hmark
    obtain ⟨hbracket, -⟩ := h.behind hns rfl (by rw [hx]; rfl) (by rw [hx]; rfl)
    rw [hx] at hbracket
    cases hbracket

/-- A dotted name and a bracket at the start of the text of an expression are those of a subscript
that it starts with. Behind the name no quote can stand. -/
theorem Expr.IsWhole.leads (h : e.IsWhole t) {path blanks rest : Text} {mark : Char}
    (hpath : IsPath path) (hblanks : IsSpace blanks) (hmark : mark = '[' ∨ isQuote mark = true)
    (htext : trim (t.slice e.span.start e.span.stop) = path ++ blanks ++ mark :: rest) :
    mark = '[' ∧ ∃ f : Expr, f.Leads e ∧ f.subscripted? = some path := by
  obtain ⟨c, c', hat, hspan, ts, hts, hne, hwords, hopens⟩ := h
  obtain ⟨r, after, hupto, hr, hsize, hsolid⟩ := hat.upto hts hne hwords
  rw [hspan] at htext
  change trim (t.slice c.here c'.stop) = _ at htext
  obtain ⟨b, b', hu, hb, -⟩ := exists_trim (t.slice c.here c'.stop)
  rw [htext] at hu
  -- The expression starts where its text does, so that only its end is trimmed.
  have hstart : ∀ d ∈ (b ++ (path ++ blanks ++ mark :: rest ++ b' ++ after)).head?,
      isBlank d = false := by
    intro d hd
    apply hsolid d
    rw [hr, hu]
    simpa using hd
  obtain rfl := hb.eq_nil hstart
  rw [hu] at hr hsize
  have hpos := mark.utf8Size_pos
  simp only [List.nil_append, List.append_assoc, List.cons_append, size_append, size_cons]
    at hr hsize
  obtain ⟨hsolid, hpart⟩ := Identifier.mark_apart hmark
  have hends := Identifier.isPart_behind (rest ++ (b' ++ after)) hblanks hpart
  obtain ⟨ns, us, r₁, rfl, hns, hr₁, hoffset, hupto⟩ := hpath.dotted hupto hr hends (by omega)
  obtain ⟨x, xs, w, r₂, r₃, rfl, -, hr₂, -, -, hread, -⟩ :=
    hupto.behind hr₁ hblanks hsolid (by omega)
  exact hopens.of_mark hns hread hr₂ hmark

end Texts

namespace Expression

open Syntax.Parser

variable {g : Grammar} {t : Text} {c : Cursor}

/-- The hint of a parameter is an expression of its own. -/
theorem paramName_whole (hheld : g.Holds) (h : c.At t) : Post (paramName (some g.test)) c
    fun p _ => ∀ e ∈ p.hint, e.IsWhole t := by
  refine Post.here ?_
  refine Post.identifier fun name c₁ h₁ => ?_
  refine Post.accept rfl (fun c₂ h₂ => ?_) (Post.span (post_pure (by simp)))
  refine (hheld.test c₂).bind fun e c₃ h₃ => Post.span (post_pure ?_)
  obtain ⟨d, d', hd, hwhole, -⟩ := h₃.within
  have hat := h.moves (h₁.moves.trans (h₂.moves.trans hd.moves))
  simpa using ⟨d, d', hat.1, hwhole⟩

end Expression

structure FunctionHead.HasHints (t : Text) (head : FunctionHead) : Prop where
  params : ∀ p ∈ head.params.single, ∀ e ∈ p.hint, e.IsWhole t
  returns : ∀ e ∈ head.returns, e.IsWhole t

namespace Statement

open Syntax.Parser Expression

/-- Each hint in a head is an expression of all words between two cursors. -/
theorem functionDef_hints {g : Grammar} {t : Text} {c : Cursor} (hg : g.Tells) (hheld : g.Holds)
    {block : Block} {start : Nat} {isAsync : Bool} {decorators : List Expr} (h : c.At t) :
    Post (functionDef g block start isAsync decorators) c
      fun s _ => s.HasHead (FunctionHead.HasHints t) := by
  refine Post.identifier fun name c₁ h₁ => ?_
  have hc₁ := (h.moves h₁.moves).1
  refine (reaches_typeParams hg c₁).bind fun typeParams c₂ h₂ => Post.expect rfl fun c₃ h₃ => ?_
  have hc₃ := (hc₁.moves (h₂.trans h₃.reaches).moves).1
  have hparam (c : Cursor) (hc : c.At t) : Post (boundParam g true) c
      fun p c' => c'.held = none → ∀ e ∈ p.hint, e.IsWhole t :=
    boundParam_each (fun _ _ hp => hp) (paramName_whole hheld hc)
  have hparams : Post (paramList g true .rightParen) c₃ fun ps c' => c'.held = none →
      EachSingle (fun p => ∀ e ∈ p.hint, e.IsWhole t) ps :=
    paramList_each hg (Cursor.lasts_at t) hparam hc₃
  have hreaches := reaches_paramList hg true .rightParen c₃
  refine (hreaches.and hparams).bind fun params c₄ h₄ => ?_
  refine Post.expectSettled rfl fun c₅ hheld₄ h₅ => ?_
  refine (reaches_checkNames params c₅).bind fun _ c₆ h₆ => ?_
  have hc₆ := (hc₃.moves (h₄.1.trans (h₅.trans h₆).reaches).moves).1
  refine Post.accept rfl (fun c₇ h₇ => ?_) ?_
  · refine Post.bind (P := fun returns _ => ∀ e ∈ returns, e.IsWhole t) ?_ fun returns c₈ h₈ => ?_
    · refine Post.map ((hheld.test c₇).mono fun e c₈ h₈ => ?_)
      obtain ⟨d, d', hd, hwhole, -⟩ := h₈.within
      simpa using ⟨d, d', (hc₆.moves (h₇.moves.trans hd.moves)).1, hwhole⟩
    · exact Post.any fun body c₉ => post_pure ⟨h₄.2 hheld₄, h₈⟩
  · exact Post.pure_bind (Post.any fun body c₇ => post_pure ⟨h₄.2 hheld₄, by simp⟩)

end Statement

/-- The hints of the functions at the top level of a parsed text. -/
theorem parse_hints [CharacterNames] {t : Text} {body : List Stmt} (h : parse t = .ok body)
    {span : Span}
    {head : FunctionHead} {inner : List Stmt} (hs : .function span head inner ∈ body) :
    head.HasHints t := by
  refine parse_heads (Cursor.lasts_at t) (Cursor.at_start t) (fun start isAsync decorators c hc => ?_)
    h hs
  exact Statement.functionDef_hints (Grammar.level_tells _) (Grammar.level_holds _) hc

end Pagewright.Syntax
