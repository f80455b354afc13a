import Pagewright.Entry
import Pagewright.Page
import Pagewright.Proofs.Text.Closing

namespace Pagewright.Page

open Text

def withoutDirectives (t : Text) : Text :=
  replace (replace t "\"use strict\";" "") "'use strict';" ""

theorem stripAsset_eq (t : Text) :
    stripAsset t = trim (stripFooterBlocks 0 (stripFooterLines (withoutDirectives t))) := rfl

/-- Whether a text has `<` and a later `/` with nothing in between, or nothing that is left once
the strict-mode directives are taken out. One directive may stand inside another. -/
def JoinsClosing (t : Text) : Prop :=
  ∃ before gap after, t = before ++ '<' :: (gap ++ '/' :: after) ∧ withoutDirectives gap = []

/-- A character that no directive has in it parts the directives before it from those after it. -/
theorem withoutDirectives_append_cons {c : Char} (hd : c ∉ "\"use strict\";".toList)
    (hs : c ∉ "'use strict';".toList) (s t : Text) :
    withoutDirectives (s ++ c :: t) = withoutDirectives s ++ c :: withoutDirectives t := by
  rw [withoutDirectives, replace_append_cons hd (by decide),
    replace_append_cons hs (by decide)]
  rfl

/-- A character that is left without directives stood in the text. -/
theorem withoutDirectives_eq_append_cons {t p q : Text} {c : Char}
    (h : withoutDirectives t = p ++ c :: q) :
    ∃ a b, t = a ++ c :: b ∧ withoutDirectives a = p ∧ withoutDirectives b = q := by
  obtain ⟨a, b, hab, ha, hb⟩ := replace_eq_append_cons h
  obtain ⟨a', b', ht, rfl, rfl⟩ := replace_eq_append_cons hab
  exact ⟨a', b', ht, ha, hb⟩

/-- Taking directives out brings the two characters about exactly where nothing else stands
between them. -/
theorem closes_withoutDirectives {t : Text} : Closes (withoutDirectives t) ↔ JoinsClosing t := by
  constructor
  · intro h
    obtain ⟨p, q, hpq⟩ := closes_iff_exists.mp h
    obtain ⟨before, rest, rfl, -, hrest⟩ := withoutDirectives_eq_append_cons hpq
    obtain ⟨gap, after, rfl, hgap, -⟩ :=
      withoutDirectives_eq_append_cons (p := []) (c := '/') (q := q) hrest
    exact ⟨before, gap, after, rfl, hgap⟩
  · rintro ⟨before, gap, after, rfl, hgap⟩
    rw [withoutDirectives_append_cons (by decide) (by decide),
      withoutDirectives_append_cons (by decide) (by decide), hgap]
    exact closes_iff_exists.mpr ⟨_, _, rfl⟩

theorem dropOne_suffix (c : Char) (t : Text) : dropOne c t <:+ t := by
  cases t with
  | nil => exact List.suffix_refl _
  | cons d t =>
    rw [dropOne]
    split
    · exact List.suffix_cons d t
    · exact List.suffix_refl _

/-- What is left of a line is an end of it. -/
theorem stripFooterLine_suffix (line : Text) : stripFooterLine line <:+ line := by
  unfold stripFooterLine
  split
  · exact List.suffix_refl _
  · rename_i rest hrest
    have hrest : rest <:+ line := by
      refine List.IsSuffix.trans ?_ (List.dropWhile_suffix isMargin)
      exact ⟨footerMark, List.append_eq_of_isPrefixOf?_eq_some hrest⟩
    refine List.IsSuffix.trans (dropOne_suffix _ _) (List.IsSuffix.trans (dropOne_suffix _ _) ?_)
    exact ((List.dropWhile_suffix _).trans (List.dropWhile_suffix _)).trans hrest

theorem closes_of_stripFooterLines {t : Text} (h : Closes (stripFooterLines t)) : Closes t :=
  Closes.of_line_ends stripFooterLine_suffix h

theorem footerBlockLength?_head {c : Char} {t : Text} {n : Nat}
    (h : footerBlockLength? (c :: t) = some n) : c = '/' := by
  cases hr : footerBlockMark.isPrefixOf? (c :: t) with
  | none => simp [footerBlockLength?, hr] at h
  | some rest =>
    have hmark : '/' :: (footerBlockMark.drop 1 ++ rest) = c :: t :=
      List.append_eq_of_isPrefixOf?_eq_some hr
    exact (List.cons.inj hmark).1.symm

theorem stripFooterBlocks_head {t : Text} (h : (stripFooterBlocks 0 t).head? = some '/') :
    t.head? = some '/' := by
  cases t with
  | nil => cases h
  | cons c t =>
    rw [stripFooterBlocks] at h
    split at h
    · rename_i n hn
      exact congrArg some (footerBlockLength?_head hn)
    · exact h

/-- A block starts with a slash: a `<` before it would stand before a slash already. -/
theorem closes_of_stripFooterBlocks {n : Nat} {t : Text} (h : Closes (stripFooterBlocks n t)) :
    Closes t := by
  induction t generalizing n with
  | nil => cases n <;> exact h
  | cons c t ih =>
    rw [closes_cons]
    cases n with
    | succ n => exact .inr (ih h)
    | zero =>
      rw [stripFooterBlocks] at h
      split at h
      · exact .inr (ih h)
      · rw [closes_cons] at h
        cases h with
        | inl h => exact .inl ⟨h.1, stripFooterBlocks_head h.2⟩
        | inr h => exact .inr (ih h)

theorem trim_occurs (t : Text) : trim t <:+: t := by
  have hright : trimRight (trimLeft t) <+: trimLeft t := by
    refine List.reverse_suffix.mp ?_
    rw [trimRight, dropEndWhile, List.reverse_reverse]
    exact List.dropWhile_suffix isBlank
  exact hright.isInfix.trans (List.dropWhile_suffix isBlank).isInfix

/-- An asset is cleaned without bringing a closing tag about, except by taking out directives. -/
theorem joinsClosing_of_stripAsset {t : Text} (h : Closes (stripAsset t)) : JoinsClosing t := by
  rw [stripAsset_eq] at h
  have h := closes_of_stripFooterBlocks (h.of_infix (trim_occurs _))
  exact closes_withoutDirectives.mp (closes_of_stripFooterLines h)

instance (t : Text) : Decidable (JoinsClosing t) :=
  decidable_of_iff _ closes_withoutDirectives

def shell : Text :=
  head ++ middle ++ tail

section

-- The parts are too long to be evaluated: their characters are read off the literals instead.
set_option maxRecDepth 20000

theorem head_ends : head.getLast? = some '>' :=
  (congrArg List.getLast? (String.toList_ofList : (String.ofList _).toList = _)).trans rfl

theorem middle_starts : middle.head? = some '<' :=
  (congrArg List.head? (String.toList_ofList : (String.ofList _).toList = _)).trans rfl

theorem middle_ends : middle.getLast? = some '>' :=
  (congrArg List.getLast? (String.toList_ofList : (String.ofList _).toList = _)).trans rfl

theorem tail_starts : tail.head? = some '<' :=
  (congrArg List.head? (String.toList_ofList : (String.ofList _).toList = _)).trans rfl

end

/-- Assets in which no `<` is joined to a `/` by taking out directives leave the page with the
places where its shell closes tags, and no others. -/
theorem closings_render {script style : Text} (hscript : ¬JoinsClosing script)
    (hstyle : ¬JoinsClosing style) :
    ¬Closes (stripAsset script) ∧ ¬Closes (stripAsset style) ∧
      closings (render script style) =
        (closings shell).map (placed head middle (stripAsset style) (stripAsset script)) := by
  have hjs : ¬Closes (stripAsset script) := mt joinsClosing_of_stripAsset hscript
  have hcss : ¬Closes (stripAsset style) := mt joinsClosing_of_stripAsset hstyle
  have hhead : head.getLast? ≠ some '<' := by simp [head_ends]
  have hmiddle : middle ≠ [] ∧ middle.head? ≠ some '/' ∧ middle.getLast? ≠ some '<' := by
    refine ⟨?_, by simp [middle_starts], by simp [middle_ends]⟩
    intro hnil
    have hstart := middle_starts
    rw [hnil] at hstart
    cases hstart
  have htail : tail.head? ≠ some '/' := by simp [tail_starts]
  exact ⟨hjs, hcss, closings_filled hhead hmiddle htail hcss hjs⟩

def sampleScript : Text :=
  "\"use strict\";\nvar less = 1 <'use strict'; 2; //\n//# sourceMappingURL=bundle.js.map\n"

def sampleStyle : Text :=
  "main\x7bcolor:red\x7d\n/*# sourceMappingURL=bundle.css.map */"

theorem closings_render_sample :
    ¬JoinsClosing sampleScript ∧ ¬JoinsClosing sampleStyle ∧
      ¬Closes (stripAsset sampleScript) ∧ ¬Closes (stripAsset sampleStyle) ∧
      closings (render sampleScript sampleStyle) =
        (closings shell).map
          (placed head middle (stripAsset sampleStyle) (stripAsset sampleScript)) := by
  have hscript : ¬JoinsClosing sampleScript := by decide +kernel
  have hstyle : ¬JoinsClosing sampleStyle := by decide +kernel
  exact ⟨hscript, hstyle, closings_render hscript hstyle⟩

/-- A directive inside a string of the props: its literal closes nothing, the cleaned entry text
does. -/
theorem directive_joins :
    ¬Closes (Json.script (.string "<'use strict';/script>")) ∧
      ¬Closes (Entry.render "./src/App.svelte" [("s", .string "<'use strict';/script>")]) ∧
      Closes (stripAsset
        (Entry.render "./src/App.svelte" [("s", .string "<'use strict';/script>")])) := by
  decide +kernel

end Pagewright.Page
