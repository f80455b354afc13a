import Pagewright.Proofs.Returns.Owned
import Pagewright.Proofs.Source
import Pagewright.Proofs.Text.Closing
import Pagewright.Proofs.Text.LineBounds
import Pagewright.Route.Extraction

namespace Pagewright

open Syntax Text

namespace Route

/-- A text that starts at an offset becomes another one by edits, all at once: what stands
between their spans is kept, and each span becomes its text. -/
inductive Substitutes : Nat → List Edit → Text → Text → Prop where
  | kept {offset : Nat} {t : Text} : Substitutes offset [] t t
  | edit {offset : Nat} {e : Edit} {es : List Edit} {kept old rest new : Text}
    (start : e.span.start = offset + size kept) (stop : e.span.stop = e.span.start + size old)
    (later : Substitutes e.span.stop es rest new) :
    Substitutes offset (e :: es) (kept ++ old ++ rest) (kept ++ e.text ++ new)

/-- Edits of a text that starts at an offset, made one after the other: none starts before the
text, and each finds its range in what the edits before it have left. -/
inductive InRange (offset : Nat) : Text → List Edit → Prop where
  | done {t : Text} : InRange offset t []
  | edit {t : Text} {e : Edit} {es : List Edit} (le : offset ≤ e.span.start)
    (range : t.HasRange (e.span.start - offset) (e.span.stop - offset))
    (later : InRange offset (applyEdit offset t e) es) : InRange offset t (e :: es)

theorem InRange.append {offset : Nat} {t : Text} {es es' : List Edit} (h : InRange offset t es)
    (h' : InRange offset (es.foldl (applyEdit offset) t) es') : InRange offset t (es ++ es') := by
  induction h with
  | done => exact h'
  | edit le range _ ih => exact .edit le range (ih h')

/-- An edit behind the start of a text leaves the start as it is. -/
theorem applyEdit_append {offset : Nat} {e : Edit} {s : Text} (t : Text)
    (hstart : offset + size s ≤ e.span.start) (hle : e.span.start ≤ e.span.stop) :
    applyEdit offset (s ++ t) e = s ++ applyEdit (offset + size s) t e := by
  have htake := takeBytes_append (s := s) (n := e.span.start - offset) t (by omega)
  have hdrop := dropBytes_append (s := s) (n := e.span.stop - offset) t (by omega)
  simp only [applyEdit, replacePart, htake, hdrop, Nat.sub_sub, List.append_assoc]

theorem foldl_applyEdit_append {offset : Nat} {es : List Edit} {s : Text} (t : Text)
    (hes : ∀ e ∈ es, offset + size s ≤ e.span.start ∧ e.span.start ≤ e.span.stop) :
    es.foldl (applyEdit offset) (s ++ t) = s ++ es.foldl (applyEdit (offset + size s)) t := by
  induction es generalizing t with
  | nil => rfl
  | cons e es ih =>
    obtain ⟨hstart, hle⟩ := hes e (by simp)
    rw [List.foldl_cons, List.foldl_cons, applyEdit_append t hstart hle,
      ih _ fun e he => hes e (by simp [he])]

theorem InRange.append_left {offset : Nat} {es : List Edit} {s t : Text}
    (h : InRange (offset + size s) t es)
    (hes : ∀ e ∈ es, e.span.start ≤ e.span.stop) : InRange offset (s ++ t) es := by
  induction h with
  | done => exact .done
  | @edit t e es le range later ih =>
    have hle := hes e (by simp)
    have hrange := hasRange_append s range
    rw [show size s + (e.span.start - (offset + size s)) = e.span.start - offset by omega,
      show size s + (e.span.stop - (offset + size s)) = e.span.stop - offset by omega] at hrange
    refine .edit (by omega) hrange ?_
    rw [applyEdit_append t le hle]
    exact ih fun e he => hes e (by simp [he])

/-- An edit that starts before all others comes behind them. -/
theorem insertEdit_last {e : Edit} {es : List Edit} (h : ∀ e' ∈ es, e.span.start < e'.span.start) :
    insertEdit e es = es ++ [e] := by
  induction es with
  | nil => rfl
  | cons e' es ih =>
    have hlt := h e' (by simp)
    rw [insertEdit, if_neg (by omega), ih fun x hx => h x (by simp [hx])]
    rfl

/-- Edits in the order of the text are made in the opposite order. -/
theorem lastFirst_eq {es : List Edit}
    (h : es.Pairwise fun e e' => e.span.start < e'.span.start) : lastFirst es = es.reverse := by
  induction h with
  | nil => rfl
  | cons hlt _ ih =>
    rw [lastFirst, List.foldr_cons, ← lastFirst, ih, insertEdit_last, List.reverse_cons]
    exact fun e' he' => hlt e' (List.mem_reverse.mp he')

/-- Edits in order within a text, made from the last one on, are one substitution. -/
theorem foldl_reverse_substitutes {offset hi : Nat} {es : List Edit} {t : Text}
    (horder : InOrder offset hi (es.map Edit.span))
    (hrange : ∀ e ∈ es, t.HasRange (e.span.start - offset) (e.span.stop - offset)) :
    Substitutes offset es t (es.reverse.foldl (applyEdit offset) t) ∧
      InRange offset t es.reverse := by
  induction es generalizing offset t with
  | nil => exact ⟨.kept, .done⟩
  | cons e es ih =>
    obtain ⟨hstart, hlt, hlater⟩ := horder
    obtain ⟨kept, old, rest, rfl, hkept, hold⟩ := hrange e (by simp)
    have hsize : offset + size (kept ++ old) = e.span.stop := by
      rw [size_append]
      omega
    have hafter : ∀ e' ∈ es, e.span.stop ≤ e'.span.start ∧ e'.span.start ≤ e'.span.stop := by
      intro e' he'
      have hin := hlater.mem (List.mem_map_of_mem he')
      omega
    have hrest : ∀ e' ∈ es,
        rest.HasRange (e'.span.start - e.span.stop) (e'.span.stop - e.span.stop) := by
      intro e' he'
      have hle := hafter e' he'
      have hsuffix := hasRange_suffix (hrange e' (by simp [he'])) (by omega)
      rwa [Nat.sub_sub, Nat.sub_sub, hsize] at hsuffix
    obtain ⟨hsub, hin⟩ := ih hlater hrest
    -- The edits behind this one leave what stands before them as it is.
    have hlast : es.reverse.foldl (applyEdit offset) (kept ++ old ++ rest) =
        kept ++ old ++ es.reverse.foldl (applyEdit e.span.stop) rest := by
      rw [← hsize]
      refine foldl_applyEdit_append rest fun e' he' => ?_
      rw [hsize]
      exact hafter e' (List.mem_reverse.mp he')
    generalize hnew : es.reverse.foldl (applyEdit e.span.stop) rest = new at *
    have hfirst : applyEdit offset (kept ++ old ++ new) e = kept ++ e.text ++ new := by
      have htake := takeBytes_size kept (old ++ new)
      have hdrop := dropBytes_size (kept ++ old) new
      rw [size_append, hold] at hdrop
      rw [applyEdit, replacePart, hdrop, ← hkept, List.append_assoc kept, htake]
    rw [List.reverse_cons, List.foldl_append, hlast, List.foldl_cons, List.foldl_nil, hfirst]
    refine ⟨.edit (by omega) (by omega) hsub, InRange.append ?_ ?_⟩
    · rw [← hsize] at hin
      refine hin.append_left fun e' he' => ?_
      exact (hafter e' (List.mem_reverse.mp he')).2
    · rw [hlast]
      exact .edit hstart ⟨kept, old, new, rfl, hkept, hold⟩ .done

/-- Edits in order are one substitution, and each finds its range. -/
theorem applyEdits_substitutes {offset hi : Nat} {es : List Edit} {t : Text}
    (horder : InOrder offset hi (es.map Edit.span))
    (hrange : ∀ e ∈ es, t.HasRange (e.span.start - offset) (e.span.stop - offset)) :
    Substitutes offset es t (applyEdits offset es t) ∧ InRange offset t (lastFirst es) := by
  have hpairs : es.Pairwise fun e e' => e.span.start < e'.span.start := by
    refine (List.pairwise_map.mp horder.pairwise).imp_of_mem fun {e e'} he _ hle => ?_
    have hin := horder.mem (List.mem_map_of_mem he)
    omega
  rw [applyEdits, lastFirst_eq hpairs]
  exact foldl_reverse_substitutes horder hrange

/-- Every line of a text that ends its last line holds one line feed, at its end. -/
theorem lineList_ended {t l : Text} (ht : t.getLast? = some '\n') (h : l ∈ lineList t) :
    ∃ s, l = s ++ ['\n'] ∧ '\n' ∉ s := by
  fun_induction lineList t generalizing l with
  | case1 => cases h
  | case2 cs ih =>
    rcases List.mem_cons.mp h with rfl | h
    · exact ⟨[], rfl, by simp⟩
    · cases cs with
      | nil => cases h
      | cons d ds => exact ih (by simpa using ht) h
  | case3 c cs hc hnil ih =>
    have hcs := flatten_lineList cs
    rw [hnil] at hcs
    subst hcs
    simp [hc] at ht
  | case4 c cs hc l' ls hl ih =>
    have hcs : cs.getLast? = some '\n' := by
      cases cs with
      | nil => cases hl
      | cons d ds => simpa using ht
    rw [hl] at ih
    rcases List.mem_cons.mp h with rfl | h
    · obtain ⟨s, rfl, hs⟩ := ih hcs List.mem_cons_self
      exact ⟨c :: s, rfl, by simp [hs, Ne.symm hc]⟩
    · exact ih hcs (List.mem_cons_of_mem _ h)

theorem getLast?_endLine (t : Text) : (endLine t).getLast? = some '\n' := by
  unfold endLine
  split
  · assumption
  · simp

/-- The edit of an owned return lies where the return does. -/
theorem returnEdit_inside (source : Source) (returnType : Option WireType) {r : Return}
    (h : r.Placed source.text) : (returnEdit source returnType r).span.Covers source.text ∧
      (returnEdit source returnType r).span.Inside r.span := by
  obtain ⟨span, value⟩ := r
  obtain ⟨hcovers, hvalue⟩ := h
  cases value with
  | some v => exact hvalue v rfl
  | none => exact ⟨hcovers, Nat.le_refl _, Nat.le_refl _⟩

theorem inOrder_edits {source : Source} (returnType : Option WireType) {lo hi : Nat}
    {rs : List Return} (horder : InOrder lo hi (rs.map Return.span))
    (hplaced : ∀ r ∈ rs, r.Placed source.text) :
    InOrder lo hi ((rs.map (returnEdit source returnType)).map Edit.span) := by
  rw [List.map_eq_flatMap (f := returnEdit source returnType)]
  refine inOrder_flatMap horder fun r hr => ?_
  obtain ⟨hcovers, hstart, hstop⟩ := returnEdit_inside source returnType (hplaced r hr)
  exact ⟨hstart, hcovers.lt, hstop⟩

/-- The ranges that the rewriting of a body takes from the text and from what it makes of it,
with the lines starting at `start`. -/
structure Ranges (source : Source) (returnType : Option WireType) (body : List Stmt)
    (first last : Stmt) (start : Nat) : Prop where
  line : source.text.HasRange (lineStart source.text first.span.start) first.span.start
  rest : source.text.HasRange last.span.stop (size source.text)
  region : source.text.HasRange start (lineEnd source.text last.span.stop)
  values : ∀ r ∈ ownedReturnsOf body, ∀ v, r.value = some v →
    source.text.HasRange v.span.start v.span.stop
  edits : InRange start (slice source.text start (lineEnd source.text last.span.stop))
    (lastFirst ((ownedReturnsOf body).map (returnEdit source returnType)))

/-- The lines start with the line of the first statement, or with the statement itself and a
standard indentation where something else stands before it on its line. -/
inductive StartsAt (source : Source) (first : Stmt) : Text → Nat → Prop where
  | line (blank : isAllBlank
      (slice source.text (lineStart source.text first.span.start) first.span.start) = true) :
    StartsAt source first [] (lineStart source.text first.span.start)
  | statement (shared : isAllBlank
      (slice source.text (lineStart source.text first.span.start) first.span.start) = false) :
    StartsAt source first "    " first.span.start

theorem bodyStart_startsAt (source : Source) (first : Stmt) :
    StartsAt source first (bodyStart source first).2 (bodyStart source first).1 := by
  by_cases h : isAllBlank
      (slice source.text (lineStart source.text first.span.start) first.span.start) = true
  · simp only [bodyStart, h, if_true]
    exact .line h
  · simp only [bodyStart, h]
    exact .statement (by simpa using h)

/-- What an owned return becomes: its value is answered with, in brackets where it needs them,
and a return without a value answers with none. -/
inductive Answered (source : Source) (returnType : Option WireType) : Return → Edit → Prop where
  | value {span : Span} {v : Expr} (text : Text)
    (bracketed : text = if needsBrackets v then '(' :: source.slice v.span ++ [')']
      else source.slice v.span) :
    Answered source returnType ⟨span, some v⟩ ⟨v.span, respond text returnType⟩
  | bare {span : Span} :
    Answered source returnType ⟨span, none⟩ ⟨span, "return \x7b\"response\": None\x7d"⟩

theorem returnEdit_answered (source : Source) (returnType : Option WireType) (r : Return) :
    Answered source returnType r (returnEdit source returnType r) := by
  obtain ⟨span, value⟩ := r
  cases value with
  | some v => exact .value _ rfl
  | none => exact .bare

/-- The lines of a rewritten body are those of its edited text from the line where the body starts.
-/
theorem bodyLines_eq (source : Source) (returnType : Option WireType) {body : List Stmt}
    {first last : Stmt} (hfirst : body.head? = some first) (hlast : body.getLast? = some last) :
    ∃ l ls, lineList (endLine (applyEdits (bodyStart source first).1
        ((ownedReturnsOf body).map (returnEdit source returnType))
        (slice source.text (bodyStart source first).1 (lineEnd source.text last.span.stop)))) =
          l :: ls ∧
      bodyLines source returnType body = ((bodyStart source first).2 ++ l) :: ls := by
  simp only [bodyLines, hfirst, hlast]
  split
  · rename_i hnil
    have hflat := flatten_lineList (endLine (applyEdits (bodyStart source first).1
      ((ownedReturnsOf body).map (returnEdit source returnType))
      (slice source.text (bodyStart source first).1 (lineEnd source.text last.span.stop))))
    rw [hnil] at hflat
    have hends := getLast?_endLine (applyEdits (bodyStart source first).1
      ((ownedReturnsOf body).map (returnEdit source returnType))
      (slice source.text (bodyStart source first).1 (lineEnd source.text last.span.stop)))
    rw [← hflat] at hends
    cases hends
  · rename_i l ls hl
    exact ⟨l, ls, hl, rfl⟩

/-- The ranges of a body that stands in its text, and the edits of its returns as one
substitution. -/
theorem substitutes_of_placed {source : Source} (returnType : Option WireType) {body : List Stmt}
    {first last : Stmt} {lead : Text} {start lo hi : Nat}
    (hbody : Block.Placed source.text lo hi body) (hfirst : body.head? = some first)
    (hlast : body.getLast? = some last) (hstart : StartsAt source first lead start) :
    Ranges source returnType body first last start ∧
      Substitutes start ((ownedReturnsOf body).map (returnEdit source returnType))
        (slice source.text start (lineEnd source.text last.span.stop))
        (applyEdits start ((ownedReturnsOf body).map (returnEdit source returnType))
          (slice source.text start (lineEnd source.text last.span.stop))) := by
  have htight : Block.Placed source.text first.span.start last.span.stop body :=
    ⟨hbody.order.tight (by simp [hfirst]) (by simp [hlast]), hbody.each⟩
  have hfirstIn := (hbody.each first (List.mem_of_mem_head? hfirst)).covers
  have hlastIn := (hbody.each last (List.mem_of_mem_getLast? hlast)).covers
  have hline := hasRange_lineStart hfirstIn.start
  have hend := hasRange_lineEnd hlastIn.stop
  obtain ⟨hle, hcut⟩ : start ≤ first.span.start ∧ source.text.IsCut start := by
    cases hstart with
    | line => exact ⟨hline.le, hline.isCut_start⟩
    | statement => exact ⟨Nat.le_refl _, hfirstIn.start⟩
  have hregion : source.text.HasRange start (lineEnd source.text last.span.stop) :=
    hasRange_of_isCut hcut hend.isCut_stop
      (Nat.le_trans hle (Nat.le_trans htight.order.le hend.le))
  obtain ⟨horder, hplaced⟩ := ownedReturnsOf_placed htight
  have hedits := (inOrder_edits returnType horder hplaced).mono hle hend.le
  have hranges : ∀ e ∈ (ownedReturnsOf body).map (returnEdit source returnType),
      (slice source.text start (lineEnd source.text last.span.stop)).HasRange
        (e.span.start - start) (e.span.stop - start) := by
    intro e he
    have hin := hedits.mem (List.mem_map_of_mem he)
    obtain ⟨r, hr, rfl⟩ := List.mem_map.mp he
    have hcovers := (returnEdit_inside source returnType (hplaced r hr)).1
    exact hasRange_slice hregion hcovers.hasRange hin.1 hin.2.2
  obtain ⟨hsub, hin⟩ := applyEdits_substitutes hedits hranges
  refine ⟨⟨hline, ?_, hregion, ?_, hin⟩, hsub⟩
  · exact hasRange_of_isCut hlastIn.stop (isCut_size _) hlastIn.stop.le_size
  · exact fun r hr v hv => ((hplaced r hr).value v hv).1.hasRange

/-- Lines that are a body with every owned return answered: the text from the start of its first
line to the end of its last one, in which all edits are made at once and every range that is
looked up or replaced on the way is there. Each line ends with its only line feed. -/
inductive Rewritten (source : Source) (returnType : Option WireType) (body : List Stmt)
    (lines : List Text) : Prop where
  | mk {first last : Stmt} {lead new : Text} {start : Nat} (isFirst : body.head? = some first)
    (isLast : body.getLast? = some last) (startsAt : StartsAt source first lead start)
    (ranges : Ranges source returnType body first last start)
    (answered : ∀ r ∈ ownedReturnsOf body,
      Answered source returnType r (returnEdit source returnType r))
    (substitutes : Substitutes start ((ownedReturnsOf body).map (returnEdit source returnType))
      (slice source.text start (lineEnd source.text last.span.stop)) new)
    (text : lines.flatten = lead ++ endLine new)
    (ended : ∀ line ∈ lines, ∃ s, line = s ++ ['\n'] ∧ '\n' ∉ s) :
    Rewritten source returnType body lines

/-- The lines of every body that stands in its text are the body rewritten, wherever the tree of
the text comes from. -/
theorem rewritten_of_placed {source : Source} (returnType : Option WireType) {body : List Stmt}
    {lo hi : Nat} (hbody : Block.Placed source.text lo hi body) (hne : body ≠ []) :
    Rewritten source returnType body (bodyLines source returnType body) := by
  obtain ⟨first, hfirst⟩ : ∃ first, body.head? = some first := ⟨_, List.head?_eq_some_head hne⟩
  obtain ⟨last, hlast⟩ : ∃ last, body.getLast? = some last :=
    ⟨_, List.getLast?_eq_some_getLast hne⟩
  obtain ⟨lead, start, hstart, heq⟩ : ∃ lead start, StartsAt source first lead start ∧
      bodyStart source first = (start, lead) := ⟨_, _, bodyStart_startsAt source first, rfl⟩
  obtain ⟨hranges, hsub⟩ := substitutes_of_placed returnType hbody hfirst hlast hstart
  obtain ⟨l, ls, hlines, hbodyLines⟩ := bodyLines_eq source returnType hfirst hlast
  rw [heq] at hlines hbodyLines
  refine .mk hfirst hlast hstart hranges (fun r _ => returnEdit_answered source returnType r)
    hsub ?_ ?_
  · rw [hbodyLines, List.flatten_cons, List.append_assoc, ← List.flatten_cons, ← hlines,
      flatten_lineList]
  · have hlead : '\n' ∉ lead := by
      cases hstart with
      | line => simp
      | statement => decide
    intro line hm
    rw [hbodyLines] at hm
    rcases List.mem_cons.mp hm with rfl | hm
    · obtain ⟨s, rfl, hs⟩ := lineList_ended (getLast?_endLine _) (hlines ▸ List.mem_cons_self)
      exact ⟨lead ++ s, by rw [List.append_assoc], by simp [hlead, hs]⟩
    · exact lineList_ended (getLast?_endLine _) (hlines ▸ List.mem_cons_of_mem _ hm)

/-- The lines of the body of every function in a file that was read are the body rewritten. -/
theorem bodyLines_rewritten [CharacterNames] {path text : Text} {source : Source} {d : Definition}
    (h : Source.ofText path text = .ok source) (hd : d ∈ source.definitions)
    (returnType : Option WireType) :
    Rewritten source returnType d.body (bodyLines source returnType d.body) := by
  obtain ⟨hne, hbody⟩ := Source.definition_placed h hd
  exact rewritten_of_placed returnType hbody hne

/-- A body behind its header, whose value is put in brackets. -/
theorem bodyLines_rewritten_inline : ∃ source d,
    Source.ofText [] "def f(): return 1, 2\n" = .ok source ∧ d ∈ source.definitions ∧
      bodyLines source none d.body = ["    return \x7b\"response\": (1, 2)\x7d\n"] ∧
      Rewritten source none d.body (bodyLines source none d.body) := by
  let body : List Stmt := [.return ⟨9, 20⟩ (some (.tuple ⟨16, 20⟩
    [.constant ⟨16, 17⟩ (.int 1), .constant ⟨19, 20⟩ (.int 2)]))]
  let head : FunctionHead := ⟨false, "f", ⟨[], [], none, [], none⟩, [], none, []⟩
  have hsource : Source.ofText [] "def f(): return 1, 2\n" =
      .ok ⟨[], "def f(): return 1, 2\n", [.function ⟨0, 20⟩ head body]⟩ := by rfl
  have hd : ⟨⟨0, 20⟩, head, body⟩ ∈ (⟨[], "def f(): return 1, 2\n",
      [.function ⟨0, 20⟩ head body]⟩ : Source).definitions := List.mem_singleton.mpr rfl
  refine ⟨_, _, hsource, hd, ?_, bodyLines_rewritten hsource hd none⟩
  decide +kernel

end Route
end Pagewright
